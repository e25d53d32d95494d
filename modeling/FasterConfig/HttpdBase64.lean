import FasterConfig.HttpdReceive

/-!
# Credentials in base64

What the decoder leaves in its output, octet by octet, and that this undoes
the standard encoding. A request with such a header then has its user and
its password.
-/

set_option autoImplicit false

namespace FasterConfig.HttpdBase64
open FasterConfig.Strings FasterConfig.HttpdDecode FasterConfig.HttpdReadRequest
open FasterConfig.HttpdReadLine FasterConfig.HttpdReceive

/-! ## The output of the decoder -/

def plain (dec : ℕ → ℕ) (i : ℕ) : UInt8 :=
  let c := i/3*4
  if i%3 = 0 then UInt8.ofNat (dec c <<< 2 ||| dec (c+1) >>> 4)
  else if i%3 = 1 then UInt8.ofNat (dec (c+1) <<< 4 ||| dec (c+2) >>> 2)
  else UInt8.ofNat (dec (c+2) <<< 6 ||| dec (c+3))

theorem plain_shift (dec : ℕ → ℕ) (i : ℕ) : plain dec (i+3) = plain (fun k => dec (k+4)) i := by
  have hdiv : (i+3)/3*4 = i/3*4+4 := by omega
  simp only [plain, Nat.add_mod_right, hdiv, Nat.add_right_comm _ 4]

theorem plain_congr (dec dec' : ℕ → ℕ) (i : ℕ) (h : ∀ k < (i/3+1)*4, dec k = dec' k) :
    plain dec i = plain dec' i := by
  simp only [plain, h (i/3*4) (by omega), h (i/3*4+1) (by omega), h (i/3*4+2) (by omega),
    h (i/3*4+3) (by omega)]

theorem loop_writes (mem : ℕ → UInt8) (g : ℕ) (s : DecodeState) (h1 : s.nprbytes ≤ 4*g)
    (h2 : 4*g < s.nprbytes+4) :
    (decodeLoop mem s).writes = s.writes ++ (List.range' 0 (3*g)).map fun i =>
      (s.bufout+i, plain (fun k => pr2six (mem (s.bufin+k))) i) := by
  induction g generalizing s with
  | zero =>
    rw [decodeLoop, if_neg (by omega)]
    simp
  | succ g ih =>
    have hrange : List.range' 0 (3*(g+1)) = List.range' 0 3 ++ (List.range' 0 (3*g)).map (3+·) := by
      rw [List.map_add_range', List.range'_append_1, Nat.mul_succ, Nat.add_comm]
    rw [decodeLoop, if_pos (by omega), ih (decodeStep mem s) (by simp only [decodeStep]; omega)
      (by simp only [decodeStep]; omega), hrange, List.map_append, ← List.append_assoc, List.map_map]
    congr 1
    apply List.map_congr_left
    intro i _
    simp only [Function.comp_apply, decodeStep]
    rw [Nat.add_comm 3 i, plain_shift, Nat.add_assoc, Nat.add_comm 3 i]
    simp only [Nat.add_assoc, Nat.add_comm 4]

def after (writes : List (ℕ × UInt8)) (bufplain : ℕ → UInt8) : ℕ → UInt8 :=
  writes.foldl (fun mem w => Function.update mem w.1 w.2) bufplain

theorem after_concat (writes : List (ℕ × UInt8)) (bufplain : ℕ → UInt8) (k : ℕ) (c : UInt8) :
    after (writes ++ [(k, c)]) bufplain = Function.update (after writes bufplain) k c :=
  List.foldl_concat _ _ _ _

theorem after_range (f bufplain : ℕ → UInt8) (m i : ℕ) :
    after ((List.range' 0 m).map fun i => (i, f i)) bufplain i = if i < m then f i else bufplain i := by
  induction m with
  | zero => rfl
  | succ m ih =>
    rw [List.range'_concat, List.map_append, List.map_singleton, after_concat, Nat.zero_add,
      Nat.one_mul]
    by_cases hi : i = m
    · rw [hi, Function.update_self, if_pos (Nat.lt_succ_self m)]
    · rw [Function.update_of_ne hi, ih]
      split_ifs <;> first | rfl | omega

def codes (coded : AsciiText) (beyond : ℕ → UInt8) (k : ℕ) : ℕ :=
  pr2six (memory coded beyond (blanks coded+k))

theorem decode_after (coded : AsciiText) (beyond bufplain : ℕ → UInt8) (outbufsize : ℕ) (i : ℕ) :
    after (httpdDecode coded beyond outbufsize).writes bufplain i =
      if i = (httpdDecode coded beyond outbufsize).nbytesdecoded then 0
      else if i < 3*((loopLength coded outbufsize+3)/4) then plain (codes coded beyond) i
      else bufplain i := by
  have hw : (httpdDecode coded beyond outbufsize).writes =
      (decodeLoop (memory coded beyond) (decodeStart coded outbufsize)).writes ++
        [((httpdDecode coded beyond outbufsize).nbytesdecoded, 0)] := by
    simp only [httpdDecode]
    split_ifs <;> rfl
  have hloop := loop_writes (memory coded beyond) ((loopLength coded outbufsize+3)/4)
    (decodeStart coded outbufsize) (by simp only [decodeStart]; omega)
    (by simp only [decodeStart]; omega)
  simp only [decodeStart, List.nil_append, Nat.zero_add] at hloop
  rw [hw, after_concat, decodeStart, hloop]
  by_cases hi : i = (httpdDecode coded beyond outbufsize).nbytesdecoded
  · rw [if_pos hi, ← hi, Function.update_self]
  · rw [if_neg hi, Function.update_of_ne hi]
    exact after_range _ _ _ _

/-! ## The standard encoding -/

def alphabet : Text := ascii "ABCDEFGHIJKLMNOPQRSTUVWXYZabcdefghijklmnopqrstuvwxyz0123456789+/"

def digit (n : ℕ) : UInt8 := alphabet.getD n 0

def pad : UInt8 := 0x3d

def encode : Text → Text
  | [] => []
  | [a] => [digit (a.toNat/4), digit (a.toNat%4*16), pad, pad]
  | [a, b] => [digit (a.toNat/4), digit (a.toNat%4*16+b.toNat/16), digit (b.toNat%16*4), pad]
  | a::b::c::rest =>
    digit (a.toNat/4)::digit (a.toNat%4*16+b.toNat/16)::digit (b.toNat%16*4+c.toNat/64)::
      digit (c.toNat%64)::encode rest

theorem alphabet_eq : alphabet = six2pr := by decide +kernel

theorem six2pr_nodup : six2pr.Nodup := by decide +kernel

theorem digit_get (n : ℕ) (h : n < 64) : ∃ hn : n < six2pr.length, digit n = six2pr[n] := by
  have hn : n < six2pr.length := h
  rw [digit, alphabet_eq]
  exact ⟨hn, List.getD_eq_getElem _ _ hn⟩

theorem pr2six_digit (n : ℕ) (h : n < 64) : pr2six (digit n) = n := by
  obtain ⟨hn, hd⟩ := digit_get n h
  rw [pr2six, hd, six2pr_nodup.idxOf_getElem n hn]

theorem digit_all (p : UInt8 → Bool) (hall : six2pr.all p = true) (n : ℕ) (h : n < 64) :
    p (digit n) = true := by
  obtain ⟨hn, hd⟩ := digit_get n h
  rw [hd]
  exact List.all_eq_true.mp hall _ (List.getElem_mem hn)

theorem digit_char (n : ℕ) (h : n < 64) : 0 < (digit n).toNat ∧ (digit n).toNat < 128 :=
  of_decide_eq_true (digit_all (fun c => 0 < c.toNat ∧ c.toNat < 128) (by decide +kernel) n h)

theorem pad_char : 0 < pad.toNat ∧ pad.toNat < 128 := by decide

theorem first_octet (a : UInt8) (x : ℕ) (hx : x < 16) :
    UInt8.ofNat ((a.toNat/4) <<< 2 ||| (a.toNat%4*16+x) >>> 4) = a := by
  have hsum : (a.toNat/4) <<< 2 ||| (a.toNat%4*16+x) >>> 4 = a.toNat := by
    rw [Nat.shiftRight_eq_div_pow, ← Nat.shiftLeft_add_eq_or_of_lt (by omega), Nat.shiftLeft_eq]
    omega
  rw [hsum, UInt8.ofNat_toNat]

theorem second_octet (b : UInt8) (x y : ℕ) (hy : y < 4) :
    UInt8.ofNat ((x*16+b.toNat/16) <<< 4 ||| (b.toNat%16*4+y) >>> 2) = b := by
  have hsum : (x*16+b.toNat/16) <<< 4 ||| (b.toNat%16*4+y) >>> 2 = x*256+b.toNat := by
    rw [Nat.shiftRight_eq_div_pow, ← Nat.shiftLeft_add_eq_or_of_lt (by omega), Nat.shiftLeft_eq]
    omega
  apply UInt8.toNat_inj.mp
  have hb := b.toNat_lt
  rw [hsum, UInt8.toNat_ofNat']
  omega

theorem third_octet (c : UInt8) (x : ℕ) :
    UInt8.ofNat ((x*4+c.toNat/64) <<< 6 ||| c.toNat%64) = c := by
  have hsum : (x*4+c.toNat/64) <<< 6 ||| c.toNat%64 = x*256+c.toNat := by
    rw [← Nat.shiftLeft_add_eq_or_of_lt (by omega), Nat.shiftLeft_eq]
    omega
  apply UInt8.toNat_inj.mp
  have hc := c.toNat_lt
  rw [hsum, UInt8.toNat_ofNat']
  omega

theorem plain_first (dec : ℕ → ℕ) : plain dec 0 = UInt8.ofNat (dec 0 <<< 2 ||| dec 1 >>> 4) := rfl

theorem plain_second (dec : ℕ → ℕ) : plain dec 1 = UInt8.ofNat (dec 1 <<< 4 ||| dec 2 >>> 2) := rfl

theorem plain_third (dec : ℕ → ℕ) : plain dec 2 = UInt8.ofNat (dec 2 <<< 6 ||| dec 3) := rfl

def code (text : Text) (k : ℕ) : ℕ := pr2six (text.getD k 0)

theorem plain_group (a b c : UInt8) (text : Text) (h0 : text.getD 0 0 = digit (a.toNat/4))
    (h1 : text.getD 1 0 = digit (a.toNat%4*16+b.toNat/16)) :
    plain (code text) 0 = a ∧ (text.getD 2 0 = digit (b.toNat%16*4+c.toNat/64) →
      plain (code text) 1 = b ∧ (text.getD 3 0 = digit (c.toNat%64) → plain (code text) 2 = c)) := by
  have ha := a.toNat_lt
  have hb := b.toNat_lt
  have hc := c.toNat_lt
  have hcode1 : code text 1 = a.toNat%4*16+b.toNat/16 := by rw [code, h1, pr2six_digit _ (by omega)]
  refine ⟨?_, fun h2 => ?_⟩
  · rw [plain_first, hcode1, code, h0, pr2six_digit _ (by omega)]
    exact first_octet a _ (by omega)
  · have hcode2 : code text 2 = b.toNat%16*4+c.toNat/64 := by rw [code, h2, pr2six_digit _ (by omega)]
    refine ⟨?_, fun h3 => ?_⟩
    · rw [plain_second, hcode1, hcode2]
      exact second_octet b _ _ (by omega)
    · rw [plain_third, hcode2, code, h3, pr2six_digit _ (by omega)]
      exact third_octet c _

theorem plain_encode (b behind : Text) (i : ℕ) (hi : i < b.length) :
    plain (code (encode b ++ behind)) i = b.getD i 0 := by
  fun_induction encode b generalizing i with
  | case1 => exact absurd hi (Nat.not_lt_zero i)
  | case2 a =>
    obtain rfl : i = 0 := by simpa using hi
    exact (plain_group a 0 0 _ rfl rfl).1
  | case3 a b =>
    have hgroup := plain_group a b 0 (encode [a, b] ++ behind) rfl rfl
    match i, hi with
    | 0, _ => exact hgroup.1
    | 1, _ => exact (hgroup.2 rfl).1
  | case4 a b c rest ih =>
    have hgroup := plain_group a b c (encode (a::b::c::rest) ++ behind) rfl rfl
    match i, hi with
    | 0, _ => exact hgroup.1
    | 1, _ => exact (hgroup.2 rfl).1
    | 2, _ => exact (hgroup.2 rfl).2 rfl
    | i+3, hi =>
      rw [plain_shift]
      exact ih i (by simpa using hi)

theorem isCode_digit (n : ℕ) (h : n < 64) : isCode (digit n) = true :=
  decide_eq_true (by rw [pr2six_digit n h]; exact Nat.le_of_lt_succ h)

theorem isCode_pad : isCode pad = false := by decide

theorem length_codes_encode (b : Text) : ((encode b).takeWhile isCode).length = (4*b.length+2)/3 := by
  fun_induction encode b with
  | case1 => rfl
  | case2 a =>
    have ha := a.toNat_lt
    simp [isCode_digit _ (show a.toNat/4 < 64 by omega), isCode_digit _ (show a.toNat%4*16 < 64 by omega),
      isCode_pad]
  | case3 a b =>
    have ha := a.toNat_lt
    have hb := b.toNat_lt
    simp [isCode_digit _ (show a.toNat/4 < 64 by omega), isCode_pad,
      isCode_digit _ (show a.toNat%4*16+b.toNat/16 < 64 by omega),
      isCode_digit _ (show b.toNat%16*4 < 64 by omega)]
  | case4 a b c rest ih =>
    have ha := a.toNat_lt
    have hb := b.toNat_lt
    have hc := c.toNat_lt
    simp only [List.takeWhile_cons, isCode_digit _ (show a.toNat/4 < 64 by omega), if_true,
      isCode_digit _ (show a.toNat%4*16+b.toNat/16 < 64 by omega),
      isCode_digit _ (show b.toNat%16*4+c.toNat/64 < 64 by omega),
      isCode_digit _ (show c.toNat%64 < 64 by omega), List.length_cons, ih]
    omega

theorem length_encode (b : Text) : (encode b).length = (b.length+2)/3*4 := by
  fun_induction encode b with
  | case1 => rfl
  | case2 a => simp
  | case3 a b => simp
  | case4 a b c rest ih =>
    simp only [List.length_cons, ih]
    omega

/-- The last character but one tells one missing octet from two. -/
theorem encode_last (b behind : Text) (h : b.length%3 ≠ 0) :
    code (encode b ++ behind) ((b.length+2)/3*4-2) > decodeMaxval ↔ b.length%3 = 1 := by
  fun_induction encode b with
  | case1 => exact absurd rfl h
  | case2 a =>
    rw [show ([a].length+2)/3*4-2 = 2 by simp]
    apply iff_of_true
    · exact show pr2six pad > 63 by decide
    · simp
  | case3 a b =>
    have hb := b.toNat_lt
    have hcode : pr2six (digit (b.toNat%16*4)) = b.toNat%16*4 := pr2six_digit _ (by omega)
    rw [show ([a, b].length+2)/3*4-2 = 2 by simp]
    apply iff_of_false
    · rw [decodeMaxval]
      exact show ¬ pr2six (digit (b.toNat%16*4)) > 63 by omega
    · simp
  | case4 a b c rest ih =>
    have hlen : (a::b::c::rest).length = rest.length+3 := rfl
    rw [hlen] at h ⊢
    rw [show (rest.length+3)%3 = rest.length%3 by omega, ← ih (by omega),
      show (rest.length+3+2)/3*4-2 = (rest.length+2)/3*4-2+4 by omega]
    rfl

theorem encode_char (b : Text) : ∀ c ∈ encode b, 0 < c.toNat ∧ c.toNat < 128 := by
  fun_induction encode b with
  | case1 => exact fun c hc => absurd hc List.not_mem_nil
  | case2 a =>
    have ha := a.toNat_lt
    simp only [List.forall_mem_cons, digit_char _ (show a.toNat/4 < 64 by omega),
      digit_char _ (show a.toNat%4*16 < 64 by omega), pad_char, true_and]
    exact fun c hc => absurd hc List.not_mem_nil
  | case3 a b =>
    have ha := a.toNat_lt
    have hb := b.toNat_lt
    simp only [List.forall_mem_cons, digit_char _ (show a.toNat/4 < 64 by omega),
      digit_char _ (show a.toNat%4*16+b.toNat/16 < 64 by omega),
      digit_char _ (show b.toNat%16*4 < 64 by omega), pad_char, true_and]
    exact fun c hc => absurd hc List.not_mem_nil
  | case4 a b c rest ih =>
    have ha := a.toNat_lt
    have hb := b.toNat_lt
    have hc := c.toNat_lt
    simp only [List.forall_mem_cons, digit_char _ (show a.toNat/4 < 64 by omega),
      digit_char _ (show a.toNat%4*16+b.toNat/16 < 64 by omega),
      digit_char _ (show b.toNat%16*4+c.toNat/64 < 64 by omega),
      digit_char _ (show c.toNat%64 < 64 by omega), true_and]
    exact ih

/-! ## Decoding what was encoded -/

structure Blanks where
  text : Text
  blank : ∀ c ∈ text, isBlank c = true

theorem blank_char (c : UInt8) (h : isBlank c = true) :
    (0 < c.toNat ∧ c.toNat < 128) ∧ isCode c = false := by
  have hall : ∀ c, isBlank c = true → (0 < c.toNat ∧ c.toNat < 128) ∧ isCode c = false :=
    octet_induction (by decide +kernel)
  exact hall c h

def encodedText (before : Blanks) (b : Text) : AsciiText where
  text := before.text ++ encode b
  ascii c hc := (List.mem_append.mp hc).elim (fun h => (blank_char c (before.blank c h)).1)
    (encode_char b c)

theorem encode_head (b : Text) : (encode b).takeWhile isBlank = [] := by
  have hdigit : ∀ n < 64, isBlank (digit n) = false := fun n hn => by
    simpa using digit_all (fun c => !isBlank c) (by decide +kernel) n hn
  fun_cases encode b with
  | case1 => rfl
  | case2 a => exact List.takeWhile_cons_of_neg (by simp [hdigit _ (show a.toNat/4 < 64 from by
      have ha := a.toNat_lt
      omega)])
  | case3 a b => exact List.takeWhile_cons_of_neg (by simp [hdigit _ (show a.toNat/4 < 64 from by
      have ha := a.toNat_lt
      omega)])
  | case4 a b c rest => exact List.takeWhile_cons_of_neg (by simp [hdigit _ (show a.toNat/4 < 64 from by
      have ha := a.toNat_lt
      omega)])

theorem blanks_encoded (before : Blanks) (b : Text) :
    blanks (encodedText before b) = before.text.length := by
  rw [blanks, encodedText, List.takeWhile_append_of_pos before.blank, encode_head, List.append_nil]

theorem codeLength_encoded (before : Blanks) (b : Text) :
    codeLength (encodedText before b) = (4*b.length+2)/3 := by
  rw [codeLength, blanks_encoded, encodedText, List.drop_left, length_codes_encode]

theorem codes_encoded (before : Blanks) (b : Text) (beyond : ℕ → UInt8) (k : ℕ)
    (h : k < (encode b).length) :
    codes (encodedText before b) beyond k = code (encode b ++ []) k := by
  rw [code, codes, blanks_encoded, memory, encodedText]
  simp only
  rw [List.append_assoc, List.getD_append_right _ _ _ _ (Nat.le_add_right _ _),
    Nat.add_sub_cancel_left, List.getD_append _ _ _ _ h, List.append_nil, List.getD_eq_getElem _ _ h,
    List.getD_eq_getElem _ _ h]

/-- The number of octets, and the octets with their NUL, whatever the output held. -/
theorem decode_encoded (before : Blanks) (b : Text) (beyond bufplain : ℕ → UInt8) (outbufsize : ℕ)
    (h : (b.length+2)/3*3 < outbufsize) :
    let d := httpdDecode (encodedText before b) beyond outbufsize
    d.nbytesdecoded = b.length ∧
      (List.range (d.nbytesdecoded+1)).map (after d.writes bufplain) = b ++ [0] := by
  have hlen := length_encode b
  have hcode := codeLength_encoded before b
  have hdecoded : decodedLength (encodedText before b) = (b.length+2)/3*3 := by
    rw [decodedLength, hcode]
    omega
  have hloop : loopLength (encodedText before b) outbufsize = (4*b.length+2)/3 := by
    rw [loopLength, if_neg (by omega), hcode]
  have hn : (httpdDecode (encodedText before b) beyond outbufsize).nbytesdecoded = b.length := by
    obtain ⟨hin, hnp, -, -⟩ := decode_loop (encodedText before b) beyond outbufsize
    rw [hloop] at hin hnp
    simp only [httpdDecode]
    split_ifs with hm hlast
    · have hplace : blanks (encodedText before b)+4*(((4*b.length+2)/3+3)/4)-2 =
          blanks (encodedText before b)+((b.length+2)/3*4-2) := by omega
      rw [hin, hplace, ← codes, codes_encoded _ _ _ _ (by omega)] at hlast
      have hmod := (encode_last b [] (by omega)).mp hlast
      simp only [hdecoded]
      omega
    · have hplace : blanks (encodedText before b)+4*(((4*b.length+2)/3+3)/4)-2 =
          blanks (encodedText before b)+((b.length+2)/3*4-2) := by omega
      rw [hin, hplace, ← codes, codes_encoded _ _ _ _ (by omega),
        encode_last b [] (by omega)] at hlast
      simp only [hdecoded]
      omega
    · simp only [hdecoded]
      omega
  refine ⟨hn, ?_⟩
  rw [hn, List.range_succ, List.map_append, List.map_singleton, decode_after, if_pos hn.symm]
  congr 1
  apply List.ext_getElem
  · rw [List.length_map, List.length_range]
  · intro i hi hib
    rw [List.getElem_map, List.getElem_range, decode_after, if_neg (by omega), if_pos (by omega),
      plain_congr _ _ i fun k hk => codes_encoded before b beyond k (by omega),
      plain_encode b [] i hib, List.getD_eq_getElem _ _ hib]

/-! ## The header -/

structure Credentials where
  user : Text
  password : Text
  plain : colon ∉ user
  text : 0 ∉ user ++ password
  short : user.length+1+password.length ≤ 99

def Credentials.joined (c : Credentials) : Text := c.user ++ colon::c.password

structure BasicHeader where
  key : Text
  before : Blanks
  credentials : Credentials
  known : key.map toLower = authorizationKey

def BasicHeader.line (h : BasicHeader) : Text :=
  h.key ++ (basicKey ++ (h.before.text ++ encode h.credentials.joined))

def isBasic (line : Text) : Prop :=
  hasKey authorizationKey line ∧ basicKey <+: line.drop authorizationKey.length

instance (text : Text) : Decidable (isBasic text) := inferInstanceAs (Decidable (_ ∧ _))

def codedText (text : Text) : AsciiText :=
  asciiText ((text.drop authorizationKey.length).drop basicKey.length)

/-- The octets that a line decodes to leave room in `authBuf`. -/
def CredentialsFit (text : Text) : Prop := isBasic text → decodedLength (codedText text) < 100

instance : DecidablePred CredentialsFit := fun _ => inferInstanceAs (Decidable (_ → _))

theorem credentialsFit_iff (text : Text) (beyond : ℕ → UInt8) : CredentialsFit text ↔
    (isBasic text → ∀ w ∈ (httpdDecode (codedText text) beyond 100).writes, w.1 < 100) := by
  have hwrites : (∀ w ∈ (httpdDecode (codedText text) beyond 100).writes, w.1 < 100) ↔
      decodedLength (codedText text) < 100 := by
    have hn := decode_nul (codedText text) beyond 100
    have hl : loopLength (codedText text) 100 = if decodedLength (codedText text) > 100 then 100*4/3
      else codeLength (codedText text) := rfl
    have hd : decodedLength (codedText text) = (codeLength (codedText text)+3)/4*3 := rfl
    rw [← List.forall_mem_map (P := fun i => i < 100), decode_writes]
    simp only [List.forall_mem_append, List.forall_mem_singleton, range_below_iff]
    split_ifs at hl <;> omega
  rw [CredentialsFit, hwrites]

theorem Credentials.joined_text (c : Credentials) : 0 ∉ c.joined := by
  intro h
  rcases List.mem_append.mp h with h | h
  · exact c.text (List.mem_append_left _ h)
  · rcases List.mem_cons.mp h with h | h
    · exact absurd h (by decide)
    · exact c.text (List.mem_append_right _ h)

theorem asciiText_self (coded : AsciiText) : asciiText coded.text = coded := by
  obtain ⟨text, hascii⟩ := coded
  simp only [asciiText, AsciiText.mk.injEq]
  exact List.filter_eq_self.mpr fun c hc => decide_eq_true (hascii c hc)

theorem decodedText_encoded (before : Blanks) (c : Credentials) (beyond authBuf : ℕ → UInt8) :
    decodedText (httpdDecode (encodedText before c.joined) beyond 100) authBuf = c.joined := by
  have hshort : (c.joined.length+2)/3*3 < 100 := by
    have hs := c.short
    rw [Credentials.joined, List.length_append, List.length_cons]
    omega
  have hplain := (decode_encoded before c.joined beyond authBuf 100 hshort).2
  rw [after] at hplain
  rw [decodedText, hplain]
  exact cString_append _ [] c.joined_text

theorem storeCredentials_joined (r : HttpReq) (c : Credentials) :
    (storeCredentials r c.joined).authUser = c.user ∧
      (storeCredentials r c.joined).authPassword = c.password := by
  have hs := c.short
  rw [storeCredentials, Credentials.joined, strchr_append _ _ _ c.plain]
  exact ⟨strncpy_short _ _ (show c.user.length < 128 by omega),
    strncpy_short _ _ (show c.password.length < 128 by omega)⟩

namespace BasicHeader
variable (h : BasicHeader)

theorem length_key : h.key.length = authorizationKey.length := by
  have hk := congrArg List.length h.known
  rwa [List.length_map] at hk

theorem take_line : h.line.take authorizationKey.length = h.key := List.take_left' h.length_key

theorem drop_line : h.line.drop authorizationKey.length =
    basicKey ++ (encodedText h.before h.credentials.joined).text := List.drop_left' h.length_key

theorem key_text : 0 ∉ h.key := by
  intro h0
  have hm := List.mem_map_of_mem (f := toLower) h0
  rw [h.known] at hm
  exact absurd hm (by decide)

theorem line_text : cString h.line = h.line := by
  apply cString_self
  intro h0
  rcases List.mem_append.mp h0 with h0 | h0
  · exact h.key_text h0
  · rcases List.mem_append.mp h0 with h0 | h0
    · exact absurd h0 (by decide)
    · exact absurd ((encodedText h.before h.credentials.joined).ascii 0 h0).1 (by decide)

theorem readHeader_line (authBuf : ℕ → UInt8) (r : HttpReq) (behind : Text) :
    readHeader authBuf r h.line behind = storeCredentials r h.credentials.joined := by
  have hkey : hasKey authorizationKey h.line = true := by
    rw [hasKey, h.take_line]
    exact decide_eq_true h.known
  rw [readHeader, if_pos hkey]
  simp only [h.drop_line]
  rw [if_pos (List.prefix_append _ _), List.drop_left, asciiText_self, decodedText_encoded]

theorem line_ne_nil : cString h.line ≠ [] := by
  rw [h.line_text]
  intro hnil
  have hl := congrArg List.length hnil
  rw [line, List.length_append, h.length_key] at hl
  exact absurd hl (by simp [authorizationKey])

end BasicHeader

theorem readHeader_other (authBuf : ℕ → UInt8) (r : HttpReq) (line behind : Text)
    (h : ¬ isBasic line) :
    (readHeader authBuf r line behind).authUser = r.authUser ∧
      (readHeader authBuf r line behind).authPassword = r.authPassword := by
  rw [readHeader]
  split_ifs with hkey
  · simp only
    rw [if_neg fun hb => h ⟨hkey, hb⟩]
    exact ⟨rfl, rfl⟩
  · exact ⟨rfl, rfl⟩
  · exact ⟨rfl, rfl⟩

theorem readHeaders_other (authBuf : ℕ → UInt8) (buf : Text) (r : HttpReq) (lines : List Text)
    (h : ∀ line ∈ lines.takeWhile fun line => cString line ≠ [], ¬ isBasic (cString line)) :
    (readHeaders authBuf buf r lines).authUser = r.authUser ∧
      (readHeaders authBuf buf r lines).authPassword = r.authPassword := by
  induction lines generalizing buf r with
  | nil => exact ⟨rfl, rfl⟩
  | cons line lines ih =>
    rw [readHeaders]
    simp only [cString_readLine]
    split_ifs with he
    · exact ⟨rfl, rfl⟩
    · rw [List.takeWhile_cons, if_pos (decide_eq_true he), List.forall_mem_cons] at h
      have hline := readHeader_other authBuf r (cString line)
        ((readLine buf line).drop ((cString line).length+1)) h.1
      have hrest := ih (readLine buf line) (readHeader authBuf r (cString line)
        ((readLine buf line).drop ((cString line).length+1))) h.2
      exact ⟨hrest.1.trans hline.1, hrest.2.trans hline.2⟩

theorem readHeaders_credentials (authBuf : ℕ → UInt8) (buf : Text) (r : HttpReq) (h : BasicHeader)
    (front back : List Text) (hfront : ∀ line ∈ front, cString line ≠ [])
    (hback : ∀ line ∈ back.takeWhile fun line => cString line ≠ [], ¬ isBasic (cString line)) :
    (readHeaders authBuf buf r (front ++ h.line::back)).authUser = h.credentials.user ∧
      (readHeaders authBuf buf r (front ++ h.line::back)).authPassword = h.credentials.password := by
  induction front generalizing buf r with
  | nil =>
    rw [List.nil_append, readHeaders]
    simp only [cString_readLine]
    rw [if_neg h.line_ne_nil, h.line_text, h.readHeader_line]
    have hstored := storeCredentials_joined r h.credentials
    have hrest := readHeaders_other authBuf (readLine buf h.line)
      (storeCredentials r h.credentials.joined) back hback
    exact ⟨hrest.1.trans hstored.1, hrest.2.trans hstored.2⟩
  | cons line front ih =>
    rw [List.cons_append, readHeaders]
    simp only [cString_readLine]
    rw [if_neg (hfront line List.mem_cons_self)]
    exact ih _ _ fun l hl => hfront l (List.mem_cons_of_mem line hl)

theorem splitQuery_credentials (r : HttpReq) :
    (splitQuery r).authUser = r.authUser ∧ (splitQuery r).authPassword = r.authPassword := by
  rw [splitQuery]
  split <;> exact ⟨rfl, rfl⟩

/-- The decoder undoes the standard encoding, and the header of a request gives the credentials. -/
theorem encoded_credentials :
    (∀ (before : Blanks) (b : Text) (beyond bufplain : ℕ → UInt8) (outbufsize : ℕ),
      (b.length+2)/3*3 < outbufsize →
      let d := httpdDecode (encodedText before b) beyond outbufsize
      d.nbytesdecoded = b.length ∧
        (List.range (d.nbytesdecoded+1)).map (after d.writes bufplain) = b ++ [0]) ∧
    ∀ (h : BasicHeader) (first : Text) (front back : List Text) (authBuf : ℕ → UInt8) (buf : Text)
      (readBuf : Memory.Mem) (readBufPtr : ℕ) (net : Network) (extra : ℕ),
      requestLines net.stream = first::(front ++ h.line::back) →
      (requestMethod (first.takeWhile isAlpha)).isSome → (∀ line ∈ front, cString line ≠ []) →
      (∀ line ∈ back.takeWhile fun line => cString line ≠ [], ¬ isBasic (cString line)) →
      ∃ r writes,
        receiveRequest authBuf (net.stream.length+2+extra) buf ⟨readBuf, readBufPtr, 0, net⟩ =
          some (some r, writes) ∧
        r.authUser = h.credentials.user ∧ r.authPassword = h.credentials.password := by
  refine ⟨decode_encoded, ?_⟩
  intro h first front back authBuf buf readBuf readBufPtr net extra hlines hmethod hfront hback
  obtain ⟨writes, hrun, -⟩ := receive_fresh authBuf buf readBuf readBufPtr net extra
  obtain ⟨method, hm⟩ := Option.isSome_iff_exists.mp hmethod
  rw [hrun, hlines, httpdReadRequest, readRequestLine, takeWhile_readLine, hm, Option.map_some,
    Option.map_some]
  refine ⟨_, writes, rfl, ?_⟩
  rw [(splitQuery_credentials _).1, (splitQuery_credentials _).2]
  exact readHeaders_credentials authBuf _ _ h front back hfront hback

def letterHeader : BasicHeader where
  key := ascii "Authorization: "
  before := ⟨[], fun c hc => absurd hc List.not_mem_nil⟩
  credentials := ⟨[0x61], [0x62], by decide, by decide, by decide⟩
  known := by decide +kernel

def letterRequest : Chunk where
  bytes := ascii "GET /\nAuthorization: Basic YTpi\n\n"
  received := by decide +kernel
  fits := by decide +kernel

theorem letter_credentials :
    (httpdDecode (encodedText letterHeader.before [0x61]) (fun _ => 0) 4).nbytesdecoded = 1 ∧
      ∃ r writes,
        receiveRequest (fun _ => 0) ((Network.mk [letterRequest] .closed).stream.length+2) []
          ⟨fun _ => 0, 0, 0, ⟨[letterRequest], .closed⟩⟩ = some (some r, writes) ∧
        r.authUser = [0x61] ∧ r.authPassword = [0x62] :=
  ⟨(encoded_credentials.1 letterHeader.before [0x61] (fun _ => 0) (fun _ => 0) 4 (by decide)).1,
    encoded_credentials.2 letterHeader (ascii "GET /") [] [[]] (fun _ => 0) [] (fun _ => 0) 0
      ⟨[letterRequest], .closed⟩ 0 (by decide +kernel) (by decide +kernel)
      (fun line hl => absurd hl List.not_mem_nil)
      (fun line hl => absurd hl (by simp [cString]))⟩

end FasterConfig.HttpdBase64
