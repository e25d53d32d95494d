import FasterConfig.Cycles
import FasterConfig.DnsReceive
import Mathlib.Data.Finite.Prod

/-!
# Chains of pointers

Labels are copied only while there is room, so nothing but pointers can keep
the decoder going. A name is decoded to its end, refused or left through a read
behind the array exactly if it does not run into pointers that go in a circle.
-/

set_option autoImplicit false

namespace FasterConfig.DnsPointers
open FasterConfig.Octets FasterConfig.Memory FasterConfig.Traced FasterConfig.Cycles
open FasterConfig.DnsQuery FasterConfig.DotStr FasterConfig.DnsReceive
open Relation

/-- The call returns, or it has read behind the `n` octets of the array. -/
def Stopped (n : ℕ) (r : Run Access (Option Decoded)) : Prop :=
  r.result.isSome ∨ ¬ r.All (Access.Below n)

/-- Two octets at `p`, the first from 64 on, that send the decoder to `q`. -/
def Jump (packet : Mem) (n p q : ℕ) : Prop :=
  64 ≤ (packet p).toNat ∧ p+1 < n ∧ q = (get16At packet p).toNat%16384

/-- A place and the room that is left there, before and behind a label that fits. -/
def Copy (packet : Mem) (n : ℕ) (a b : ℕ × ℕ) : Prop :=
  packet a.1 ≠ 0 ∧ (packet a.1).toNat < 64 ∧ (packet a.1).toNat+1 ≤ a.2 ∧
    a.1+((packet a.1).toNat+1) ≤ n ∧ b.1 = a.1+((packet a.1).toNat+1) ∧
    b.2 = a.2-((packet a.1).toNat+1)

def Next (packet : Mem) (n : ℕ) (a b : ℕ × ℕ) : Prop :=
  Copy packet n a b ∨ (Jump packet n a.1 b.1 ∧ b.2 = a.2)

/-! ## The decoder walks along -/

section Steps
variable (packet : Mem) (n fuel pos plain enc s size : ℕ) (dot : Mem)

theorem not_stopped_starved : ¬ Stopped n (decodeLoop packet (some 0) 0 pos plain enc s size dot) := by
  rintro (h | h)
  · exact absurd h Bool.false_ne_true
  · exact h (Run.all_starved _)

theorem stopped_outside (h : n ≤ pos) :
    Stopped n (decodeLoop packet (some 0) 1 pos plain enc s size dot) := by
  refine .inr fun hb => ?_
  have := below_first _ _ _ _ _ _ _ _ _ _ hb
  omega

theorem stopped_root (h : packet pos = 0) :
    Stopped n (decodeLoop packet (some 0) 1 pos plain enc s size dot) := by
  rw [Stopped, result_root _ _ _ _ _ _ _ _ _ h]
  exact .inl rfl

theorem stopped_refused (h0 : packet pos ≠ 0) (h : (packet pos).toNat < 64)
    (hr : size < plain+(packet pos).toNat+1) :
    Stopped n (decodeLoop packet (some 0) 1 pos plain enc s size dot) := by
  rw [Stopped, result_label _ _ _ _ _ _ _ _ _ h0 h, if_pos hr]
  exact .inl rfl

theorem stopped_label_outside (h0 : packet pos ≠ 0) (h : (packet pos).toNat < 64)
    (hr : plain+(packet pos).toNat+1 ≤ size) (hn : n < pos+((packet pos).toNat+1)) :
    Stopped n (decodeLoop packet (some 0) 1 pos plain enc s size dot) := by
  refine .inr fun hb => ?_
  rw [below_label _ _ _ _ _ _ _ _ _ _ h0 h] at hb
  have := (hb.2 hr).1
  omega

theorem stopped_label_iff (h0 : packet pos ≠ 0) (h : (packet pos).toNat < 64)
    (hr : plain+(packet pos).toNat+1 ≤ size) (hn : pos+((packet pos).toNat+1) ≤ n) :
    Stopped n (decodeLoop packet (some 0) (fuel+1) pos plain enc s size dot) ↔
      Stopped n (decodeLoop packet (some 0) fuel (pos+((packet pos).toNat+1))
        (plain+((packet pos).toNat+1)) (enc+((packet pos).toNat+1)) s size
        (store dot (s+plain) (slice packet (pos+1) (packet pos).toNat ++ [0x2e]))) := by
  have hpos : pos < n := by omega
  rw [Stopped, Stopped, result_label _ _ _ _ _ _ _ _ _ h0 h, if_neg (by omega),
    below_label _ _ _ _ _ _ _ _ _ _ h0 h]
  simp only [hpos, hr, hn, true_and, true_implies]

theorem stopped_pointer_outside (h : 64 ≤ (packet pos).toNat) (hn : n ≤ pos+1) :
    Stopped n (decodeLoop packet (some 0) 1 pos plain enc s size dot) := by
  refine .inr fun hb => ?_
  rw [below_pointer _ _ _ _ _ _ _ _ _ _ h] at hb
  omega

theorem stopped_pointer_iff (h : 64 ≤ (packet pos).toNat) (hn : pos+1 < n) :
    Stopped n (decodeLoop packet (some 0) (fuel+1) pos plain enc s size dot) ↔
      Stopped n (decodeLoop packet (some 0) fuel ((get16At packet pos).toNat%16384) 0 0 (s+plain)
        (size-plain) dot) := by
  rw [Stopped, Stopped, result_pointer _ _ _ _ _ _ _ _ _ h, below_pointer _ _ _ _ _ _ _ _ _ _ h,
    Option.isSome_map, Nat.zero_add]
  simp only [hn, true_and]

end Steps

section Walk
variable (packet : Mem) (n : ℕ)

theorem stopped_of_ends (a : ℕ × ℕ) (h : Ends (Next packet n) a) :
    ∀ plain enc s size dot, plain ≤ size → size-plain = a.2 →
      ∃ fuel, Stopped n (decodeLoop packet (some 0) fuel a.1 plain enc s size dot) := by
  induction h with
  | intro a _ ih =>
    obtain ⟨pos, room⟩ := a
    intro plain enc s size dot hp hroom
    simp only at hroom ⊢
    by_cases hn : n ≤ pos
    · exact ⟨1, stopped_outside _ _ _ _ _ _ _ _ hn⟩
    by_cases h0 : packet pos = 0
    · exact ⟨1, stopped_root _ _ _ _ _ _ _ _ h0⟩
    by_cases h : (packet pos).toNat < 64
    · by_cases hr : size < plain+(packet pos).toNat+1
      · exact ⟨1, stopped_refused _ _ _ _ _ _ _ _ h0 h hr⟩
      by_cases hl : n < pos+((packet pos).toNat+1)
      · exact ⟨1, stopped_label_outside _ _ _ _ _ _ _ _ h0 h (by omega) hl⟩
      have hcopy : Copy packet n (pos, room)
          (pos+((packet pos).toNat+1), room-((packet pos).toNat+1)) :=
        ⟨h0, h, by simp only; omega, by simp only; omega, rfl, rfl⟩
      obtain ⟨fuel, hf⟩ := ih _ (.inl hcopy) (plain+((packet pos).toNat+1))
        (enc+((packet pos).toNat+1)) s size _ (by omega) (by simp only; omega)
      exact ⟨fuel+1, (stopped_label_iff _ _ _ _ _ _ _ _ _ h0 h (by omega) (by omega)).mpr hf⟩
    · by_cases hl : n ≤ pos+1
      · exact ⟨1, stopped_pointer_outside _ _ _ _ _ _ _ _ (by omega) hl⟩
      have hjump : Jump packet n pos ((get16At packet pos).toNat%16384) :=
        ⟨by omega, by omega, rfl⟩
      obtain ⟨fuel, hf⟩ := ih ((get16At packet pos).toNat%16384, room) (.inr ⟨hjump, rfl⟩) 0 0
        (s+plain) (size-plain) dot (Nat.zero_le _) hroom
      exact ⟨fuel+1, (stopped_pointer_iff _ _ _ _ _ _ _ _ _ (by omega) (by omega)).mpr hf⟩

theorem ends_of_stopped (fuel : ℕ) : ∀ pos plain enc s size dot, plain ≤ size →
    Stopped n (decodeLoop packet (some 0) fuel pos plain enc s size dot) →
      Ends (Next packet n) (pos, size-plain) := by
  induction fuel with
  | zero => exact fun _ _ _ _ _ _ _ h => absurd h (not_stopped_starved _ _ _ _ _ _ _ _)
  | succ fuel ih =>
    intro pos plain enc s size dot hp h
    rw [ends_iff]
    rintro ⟨q, room⟩ (⟨h0, h64, hr, hn, hq, hroom⟩ | ⟨⟨h64, hn, hq⟩, hroom⟩)
    · simp only at h0 h64 hr hn hq hroom
      rw [stopped_label_iff _ _ _ _ _ _ _ _ _ h0 h64 (by omega) hn] at h
      have hends := ih _ _ _ _ _ _ (by omega) h
      rwa [hq, hroom, Nat.sub_sub]
    · simp only at h64 hn hq hroom
      rw [stopped_pointer_iff _ _ _ _ _ _ _ _ _ h64 hn] at h
      have hends := ih _ _ _ _ _ _ (Nat.zero_le _) h
      rwa [hq, hroom]

theorem stops_iff_ends (pos s size : ℕ) (dot : Mem) :
    (∃ fuel, Stopped n (decodeDotStr packet (some 0) fuel pos s size dot)) ↔
      Ends (Next packet n) (pos, size) := by
  constructor
  · rintro ⟨fuel, h⟩
    exact ends_of_stopped packet n fuel pos 0 0 s size dot (Nat.zero_le _) h
  · exact fun h => stopped_of_ends packet n (pos, size) h 0 0 s size dot (Nat.zero_le _) rfl

/-! ## Circles -/

theorem reached_finite (a : ℕ × ℕ) : {b | ReflTransGen (Next packet n) a b}.Finite := by
  apply ((Set.finite_le_nat (max a.1 (n+16384))).prod (Set.finite_le_nat a.2)).subset
  intro b hb
  rw [Set.mem_prod, Set.mem_ofPred, Set.mem_ofPred]
  induction hb with
  | refl => exact ⟨Nat.le_max_left _ _, Nat.le_refl _⟩
  | tail _ hbc ih =>
    rcases hbc with ⟨-, -, -, hn, hq, hroom⟩ | ⟨⟨-, -, hq⟩, hroom⟩
    · exact ⟨by omega, by omega⟩
    · exact ⟨by omega, by omega⟩

/-- Labels use up room, so there are only pointers on a circle. -/
theorem cycle_iff (a : ℕ × ℕ) :
    TransGen (Next packet n) a a ↔ TransGen (Jump packet n) a.1 a.1 := by
  constructor
  · intro h
    have hlevel := level_of_cycle (Next packet n) (fun b c => Jump packet n b.1 c.1) Prod.snd ?_ a h
    · exact hlevel.lift Prod.fst fun _ _ hj => hj
    · rintro b c (⟨-, -, hr, -, -, hroom⟩ | ⟨hj, hroom⟩)
      · exact .inl (by omega)
      · exact .inr ⟨hroom, hj⟩
  · intro h
    exact h.lift (fun p => (p, a.2)) fun _ _ hj => .inr ⟨hj, rfl⟩

end Walk

/-- Whatever the receive array holds and whatever lies behind it. -/
theorem decoding_stops_iff (recvbuf : Mem) (szEncodedStr szDotStr nDotStrSize : ℕ) (dot : Mem) :
    (∃ fuel, Stopped recvbufSize
      (decodeDotStr recvbuf (some 0) fuel szEncodedStr szDotStr nDotStrSize dot)) ↔
      ∀ b, ReflTransGen (Next recvbuf recvbufSize) (szEncodedStr, nDotStrSize) b →
        ¬ TransGen (Jump recvbuf recvbufSize) b.1 b.1 := by
  rw [stops_iff_ends, ends_iff_acyclic _ _ (reached_finite recvbuf recvbufSize _)]
  simp only [cycle_iff]

def loopDatagram : List UInt8 :=
  [0x00, 0x07, 0x81, 0x00, 0x00, 0x00, 0x00, 0x01, 0x00, 0x00, 0x00, 0x00, 0xc0, 0x0c]

theorem self_pointer_endless :
    ¬ ∃ fuel, Stopped recvbufSize (decodeDotStr (load loopDatagram fun _ => 0) (some 0) fuel
      hdrOffset szDotName dotNameSize fun _ => 0) := by
  rw [stops_iff_ends]
  apply not_ends_of_cycle
  rw [cycle_iff]
  exact .single ⟨by decide, by decide, by decide⟩

end FasterConfig.DnsPointers
