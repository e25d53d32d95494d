import FasterConfig.DnsLists
import FasterConfig.Separators

/-!
# Names encoded and decoded

What the encoder writes for a text is read back as the text without the dots
that separate nothing, and that text is encoded into the same octets.
-/

set_option autoImplicit false

namespace FasterConfig.DnsRoundTrip
open FasterConfig.Octets FasterConfig.DomainName FasterConfig.Memory FasterConfig.Strings
open FasterConfig.DnsRequest FasterConfig.Traced FasterConfig.DotStr FasterConfig.DnsLists
open FasterConfig.Separators

theorem joined_strtok (s : Text) : joined (strtok 0x2e s) = tidy 0x2e s :=
  (joined_eq _).trans (intercalate_tokens 0x2e s)

theorem strtok_tidy (s : Text) : strtok 0x2e (tidy 0x2e s) = strtok 0x2e s := tokens_tidy 0x2e s

theorem length_tidy (s : Text) (h : strtok 0x2e s ≠ []) :
    (wireLabels (strtok 0x2e s)).length = (tidy 0x2e s).length+1 ∧ (tidy 0x2e s).length ≤ s.length := by
  have hlen := length_joined (strtok 0x2e s) h
  have hle := length_strtok 0x2e s
  rw [← length_wireLabels] at hle
  rw [joined_strtok] at hlen
  exact ⟨hlen, by omega⟩

theorem wire_decoded (packet : Mem) (p : ℕ) (ls : List Label) (hne : ls ≠ [])
    (hv : ∀ l ∈ ls, ValidLabel l) (h : Holds packet p (wire ls)) (start : Option ℕ)
    (szDotStr nDotStrSize : ℕ) (hs : 1 ≤ szDotStr) (hfit : (wireLabels ls).length ≤ nDotStrSize) :
    ∃ needed, ∀ fuel, needed ≤ fuel → ∀ dot,
      (decodeDotStr packet start fuel p szDotStr nDotStrSize dot).result =
        some (some ⟨(wire ls).length, store dot szDotStr (joined ls ++ [0])⟩) := by
  have hd : Holds packet 0 (slice packet 0 p ++ wire ls) := by
    rw [holds_append, length_slice, Nat.zero_add]
    exact ⟨holds_slice packet 0 p, h⟩
  have hn : NameAt uncompressed (slice packet 0 p ++ wire ls) p ls (wire ls).length := by
    apply nameAt_wire uncompressed _ ls hv
    rw [List.drop_left' (length_slice packet 0 p)]
  obtain ⟨needed, hneeded⟩ := decodeLoop_name packet _ hd start uncompressed (fun _ h => h.elim) p
    (wire ls).length ls hn
  refine ⟨needed, fun fuel hf dot => ?_⟩
  rw [decodeDotStr, hneeded fuel hf 0 0 szDotStr nDotStrSize dot hs (Nat.zero_le _), if_pos (by omega),
    Nat.zero_add, Nat.add_zero, ended_eq dot szDotStr ls hne]

/-- Whatever the arrays held before, and wherever the encoded name stands. -/
theorem encode_decode (s : Text) (hl : strtok 0x2e s ≠ []) (hle : ∀ l ∈ strtok 0x2e s, l.length ≤ 63)
    (hs : s.length+2 < 65536) (nDotStrSize : ℕ) (hsize : s.length < nDotStrSize)
    (szEncodedStr : Text) :
    encodeDotStr s szEncodedStr (s.length+2) =
        .encoded (memcpy szEncodedStr 0 (wire (strtok 0x2e s))) ∧
      (∀ packet p, Holds packet p (memcpy szEncodedStr 0 (wire (strtok 0x2e s))) →
        ∀ start szDotStr, 1 ≤ szDotStr → ∃ needed, ∀ fuel, needed ≤ fuel → ∀ dot,
          (decodeDotStr packet start fuel p szDotStr nDotStrSize dot).result =
            some (some ⟨(wire (strtok 0x2e s)).length, store dot szDotStr (tidy 0x2e s ++ [0])⟩)) ∧
      encodeDotStr (tidy 0x2e s) szEncodedStr ((tidy 0x2e s).length+2) =
        .encoded (memcpy szEncodedStr 0 (wire (strtok 0x2e s))) := by
  obtain ⟨hlen, hshort⟩ := length_tidy s hl
  refine ⟨encodeDotStr_written s szEncodedStr (by omega) hl _ (Nat.le_refl _), ?_, ?_⟩
  · intro packet p hp start szDotStr hz
    have hm := memcpy_append [] szEncodedStr (wire (strtok 0x2e s))
    rw [List.nil_append, List.nil_append, List.length_nil] at hm
    rw [hm, holds_append] at hp
    have hv : ∀ l ∈ strtok 0x2e s, ValidLabel l := fun l h =>
      ⟨List.length_pos_iff.mpr (mem_strtok 0x2e s l h).1, hle l h⟩
    rw [← joined_strtok]
    exact wire_decoded packet p _ hl hv hp.1 start szDotStr nDotStrSize hz (by omega)
  · have hagain := encodeDotStr_written (tidy 0x2e s) szEncodedStr (by omega)
      (by rwa [strtok_tidy]) _ (Nat.le_refl _)
    rwa [strtok_tidy] at hagain

def dottedText : Text := [0x2e, 0x2e, 0x61, 0x2e, 0x2e, 0x62, 0x2e]

theorem dottedText_round :
    encodeDotStr dottedText (List.replicate 9 0xff) 9 =
        .encoded [0x01, 0x61, 0x01, 0x62, 0x00, 0xff, 0xff, 0xff, 0xff] ∧
      encodeDotStr [0x61, 0x2e, 0x62] (List.replicate 9 0xff) 5 =
        .encoded [0x01, 0x61, 0x01, 0x62, 0x00, 0xff, 0xff, 0xff, 0xff] := by
  obtain ⟨henc, -, hagain⟩ := encode_decode dottedText (by decide) (by decide) (by decide) 8
    (by decide) (List.replicate 9 0xff)
  exact ⟨henc, hagain⟩

end FasterConfig.DnsRoundTrip
