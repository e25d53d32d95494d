import FasterConfig.DnsLists

/-!
# Decompression of names

A name that is there is written out in full into an array of any size, or
refused where its text does not fit. Every write of the decoder, in whichever
call it happens, lies inside the array that the caller gave.
-/

set_option autoImplicit false

namespace FasterConfig.DnsDecompress
open FasterConfig.Octets FasterConfig.DomainName FasterConfig.Memory FasterConfig.Traced
open FasterConfig.DotStr FasterConfig.DnsLists

def Within (s size : ℕ) : Access → Prop
  | .read _ => True
  | .write place => s ≤ place ∧ place < s+size

section Accesses
variable (mem : Mem) (s size p n : ℕ)

@[simp] theorem readOctet_within : (readOctet mem p).All (Within s size) := by
  simp [Run.All, readOctet, Within]

@[simp] theorem readOctets_within : (readOctets mem p n).All (Within s size) := by
  intro e he
  obtain ⟨i, -, rfl⟩ := List.mem_map.mp he
  trivial

@[simp] theorem read16_within : (read16 mem p).All (Within s size) := by
  simp [Run.All, read16, Within]

theorem writeOctets_within (w : List UInt8) (h : s ≤ p) (hl : p+w.length ≤ s+size) :
    (writeOctets mem p w).All (Within s size) := by
  intro e he
  obtain ⟨i, hi, rfl⟩ := List.mem_map.mp he
  have hi := List.mem_range'_1.mp hi
  exact ⟨by omega, by omega⟩

end Accesses

section Steps
variable (packet : Mem) (fuel pos plain enc s size lo room : ℕ) (dot : Mem)

theorem within_root (h : packet pos = 0) (hlo : lo < s+plain) (hr : s+plain ≤ lo+room) :
    (decodeLoop packet (some 0) (fuel+1) pos plain enc s size dot).All (Within lo room) := by
  simp only [decodeLoop, Run.all_bind, readOctet_within, result_readOctet, Option.some.injEq,
    forall_eq', true_and, if_pos h, Run.all_pure, implies_true, and_true]
  exact writeOctets_within _ _ _ _ _ (by omega) (by simp only [List.length_singleton]; omega)

theorem within_label (h0 : packet pos ≠ 0) (h : (packet pos).toNat < 64) (hlo : lo ≤ s+plain)
    (hr : s+size ≤ lo+room)
    (rest : plain+((packet pos).toNat+1) ≤ size →
      (decodeLoop packet (some 0) fuel (pos+((packet pos).toNat+1)) (plain+((packet pos).toNat+1))
        (enc+((packet pos).toNat+1)) s size (store dot (s+plain)
          (slice packet (pos+1) (packet pos).toNat ++ [0x2e]))).All (Within lo room)) :
    (decodeLoop packet (some 0) (fuel+1) pos plain enc s size dot).All (Within lo room) := by
  simp only [decodeLoop, Run.all_bind, readOctet_within, result_readOctet, Option.some.injEq,
    forall_eq', true_and, if_neg h0, if_pos ((and_c0 _).mpr h)]
  by_cases hs : size < plain+(packet pos).toNat+1
  · simp only [if_pos hs, Run.all_pure]
  · simp only [if_neg hs, Run.all_bind, readOctets_within, result_readOctets, Option.some.injEq,
      forall_eq', true_and, result_writeOctets]
    refine ⟨writeOctets_within _ _ _ _ _ hlo ?_, rest (by omega)⟩
    rw [List.length_append, length_slice, List.length_singleton]
    omega

theorem within_pointer (h : 64 ≤ (packet pos).toNat)
    (target : (decodeLoop packet (some 0) fuel ((get16At packet pos).toNat%16384) 0 0 (s+plain)
      (size-plain) dot).All (Within lo room)) :
    (decodeLoop packet (some 0) (fuel+1) pos plain enc s size dot).All (Within lo room) := by
  obtain ⟨h0, hc⟩ := pointer_octet (packet pos) h
  simpa only [decodeLoop, Run.all_bind, readOctet_within, result_readOctet, Option.some.injEq,
    forall_eq', true_and, if_neg h0, if_neg hc, read16_within, result_read16, and_3fff,
    Run.all_pure, implies_true, and_true, Nat.zero_add] using target

end Steps

/-- The closing NUL falls on a dot, so there is some text in front of it. -/
theorem decodeLoop_within (packet : Mem) (d : List UInt8) (hd : Holds packet 0 d) (pos len : ℕ)
    (ls : List Label) (h : NameAt compressed d pos ls len) (lo room fuel plain enc s size : ℕ)
    (dot : Mem) (hp : plain ≤ size) (hlo : lo ≤ s) (hroom : s+size = lo+room)
    (hdot : ls = [] → lo < s+plain) :
    (decodeLoop packet (some 0) fuel pos plain enc s size dot).All (Within lo room) := by
  induction h generalizing fuel plain enc s size dot with
  | root pos h =>
    cases fuel with
    | zero => exact Run.all_starved _
    | succ fuel =>
      exact within_root _ _ _ _ _ _ _ _ _ _ (root_octet packet d hd pos h) (hdot rfl) (by omega)
  | label pos len l ls hl h rest ih =>
    cases fuel with
    | zero => exact Run.all_starved _
    | succ fuel =>
      have hle := hl.le
      obtain ⟨hn, h0, -⟩ := label_octets packet d hd pos l hl h
      refine within_label _ _ _ _ _ _ _ _ _ _ h0 (by omega) (by omega) (by omega) fun hfit => ?_
      rw [hn] at hfit ⊢
      exact ih _ _ _ _ _ _ hfit hlo hroom fun _ => by omega
  | pointer pos len hi lo' ls h hmark target ih =>
    cases fuel with
    | zero => exact Run.all_starved _
    | succ fuel =>
      obtain ⟨hc, hw⟩ := pointer_octets packet d hd pos hi lo' h
      refine within_pointer _ _ _ _ _ _ _ _ _ _ ?_ ?_
      · rw [hc]
        exact Nat.le_trans (by decide) hmark
      · rw [hw]
        exact ih _ _ _ _ _ _ (Nat.zero_le _) (by omega) (by omega) fun hr => by
          have := hdot hr
          omega

theorem encoded_le (d : List UInt8) (pos len : ℕ) (ls : List Label) (h : NameAt compressed d pos ls len) :
    len ≤ (wireLabels ls).length+2 := by
  induction h with
  | root pos h => exact Nat.le_succ 1
  | label pos len l ls hl h rest ih =>
    rw [wireLabels_cons, List.length_append, List.length_cons]
    omega
  | pointer pos len hi lo ls h hm target ih => exact Nat.le_add_left _ _

/-- No `USHORT` wraps around for such a size. -/
theorem name_decompressed (packet : Mem) (d : List UInt8) (hd : Holds packet 0 d) (pos len : ℕ)
    (ls : List Label) (h : NameAt compressed d pos ls len) (hne : ls ≠ [])
    (szDotStr nDotStrSize : ℕ) (hs : 1 ≤ szDotStr) (hsize : nDotStrSize ≤ 1024) :
    (∀ fuel dot, (decodeDotStr packet (some 0) fuel pos szDotStr nDotStrSize dot).All
      (Within szDotStr nDotStrSize)) ∧
      ∃ needed, ∀ fuel, needed ≤ fuel → ∀ dot, ∃ r,
        (decodeDotStr packet (some 0) fuel pos szDotStr nDotStrSize dot).result = some r ∧
        (r.isSome ↔ (ls.map fun l => l.length+1).sum ≤ nDotStrSize) ∧
        ∀ out, r = some out → out.encodedStrLen = len ∧ len < 65536 ∧
          out.dot = store dot szDotStr (joined ls ++ [0]) := by
  constructor
  · intro fuel dot
    exact decodeLoop_within packet d hd pos len ls h szDotStr nDotStrSize fuel 0 0 szDotStr
      nDotStrSize dot (Nat.zero_le _) (Nat.le_refl _) rfl fun h => absurd h hne
  · obtain ⟨needed, hn⟩ := decodeLoop_name packet d hd (some 0) compressed
      (fun c hc => ⟨Nat.le_trans (by decide) hc, rfl⟩) pos len ls h
    have hle := encoded_le d pos len ls h
    refine ⟨needed, fun fuel hf dot => ⟨_, hn fuel hf 0 0 szDotStr nDotStrSize dot hs (Nat.zero_le _), ?_⟩⟩
    rw [sum_labels, Nat.zero_add, Nat.zero_add, Nat.add_zero, ended_eq dot szDotStr ls hne]
    by_cases hfit : (wireLabels ls).length ≤ nDotStrSize
    · rw [if_pos hfit]
      refine ⟨by simp [hfit], ?_⟩
      rintro out ⟨⟩
      exact ⟨rfl, by omega, rfl⟩
    · rw [if_neg hfit]
      exact ⟨by simp [hfit], nofun⟩

/-- The label a, and a pointer to the label b behind it. -/
def pointedPacket : List UInt8 := [0x01, 0x61, 0xc0, 0x04, 0x01, 0x62, 0x00]

theorem pointedPacket_name : NameAt compressed pointedPacket 0 [[0x61], [0x62]] 4 :=
  .label 0 2 [0x61] [[0x62]] ⟨by decide, by decide⟩ (by decide)
    (.pointer 2 3 0xc0 0x04 [[0x62]] (by decide) (by simp [compressed])
      (.label 4 1 [0x62] [] ⟨by decide, by decide⟩ (by decide) (.root 6 (by decide))))

theorem pointedPacket_decompressed :
    ∃ needed, ∀ fuel, needed ≤ fuel → ∀ dot, ∃ out,
      (decodeDotStr (load pointedPacket fun _ => 0) (some 0) fuel 0 1 4 dot).result = some (some out) ∧
        out.encodedStrLen = 4 ∧ out.dot = store dot 1 [0x61, 0x2e, 0x62, 0] := by
  obtain ⟨-, needed, hn⟩ := name_decompressed (load pointedPacket fun _ => 0) pointedPacket
    ((holds_load pointedPacket _ 0 pointedPacket (by decide)).mpr (by decide)) 0 4 _
    pointedPacket_name (by decide) 1 4 (by decide) (by decide)
  refine ⟨needed, fun fuel hf dot => ?_⟩
  obtain ⟨r, hr, hfit, hout⟩ := hn fuel hf dot
  obtain ⟨out, rfl⟩ := Option.isSome_iff_exists.mp (hfit.mpr (by decide))
  obtain ⟨hlen, -, hdot⟩ := hout out rfl
  exact ⟨out, hr, hlen, hdot⟩

end FasterConfig.DnsDecompress
