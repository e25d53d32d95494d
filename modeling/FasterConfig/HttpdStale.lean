import FasterConfig.HttpdDangling

/-!
# What the array held before

A request is parsed in an array that is not cleared. Two runs that differ in
its first content agree in the cells that a line has been read into, and
differ in what they parse where the end of a method or the decoder looks
behind these cells. Credentials that go beyond their own array do so in both
runs alike, and are stored in both as if nothing had happened.
-/

set_option autoImplicit false

namespace FasterConfig.HttpdStale
open FasterConfig.Strings FasterConfig.HttpdDecode FasterConfig.HttpdReadRequest
open FasterConfig.HttpdReadLine FasterConfig.HttpdReceive FasterConfig.HttpdBase64
open FasterConfig.HttpdDangling FasterConfig.HttpdVariables
open FasterConfig.HttpdOutput (httpMaxLen)

/-- The array the lines are read into, with any content. -/
structure LineArray where
  cells : Text
  full : cells.length = httpMaxLen

/-! ## Where the content is looked at -/

/-- The decoder looks at a cell of the array that no line has reached; `touched` cells have been. -/
def readsStale (touched : ℕ) (text : Text) : Bool :=
  decide (LooksBehind (codedText text) ∧ touched ≤ text.length+1 ∧ text.length+1 < httpMaxLen)

structure Stale where
  user : Bool
  password : Bool
  deriving DecidableEq

def staleHeader (authBuf : ℕ → UInt8) (touched : ℕ) (s : Stale) (text : Text) : Stale :=
  if isBasic text then
    { user := readsStale touched text
      password := if colon ∈ authText (codedText text) (fun _ => 0) authBuf
        then readsStale touched text else s.password }
  else s

def staleHeaders (authBuf : ℕ → UInt8) : ℕ → Stale → List Text → Stale
  | _, s, [] => s
  | touched, s, line::lines =>
    let touched := max touched (line.length+1)
    if cString line = [] then s
    else staleHeaders authBuf touched (staleHeader authBuf touched s (cString line)) lines

/-- The line does not end with its method, and no credentials depend on the content. -/
def FromLines (authBuf : ℕ → UInt8) : List Text → Prop
  | [] => True
  | first::lines =>
    requestMethod (first.takeWhile isAlpha) = none ∨ first.takeWhile isAlpha ≠ first ∧
      staleHeaders authBuf (first.length+1) ⟨false, false⟩ lines = ⟨false, false⟩

/-! ## Two arrays -/

theorem getD_readLine (buf line : Text) (i : ℕ) :
    (readLine buf line).getD i 0 = (line ++ [0]).getD i (buf.getD i 0) := by
  have hlen : (line ++ [0]).length = line.length+1 := by rw [List.length_append, List.length_singleton]
  rw [readLine, List.append_cons]
  by_cases hi : i < (line ++ [0]).length
  · rw [List.getD_append _ _ _ _ hi, List.getD_eq_getElem _ _ hi, List.getD_eq_getElem _ _ hi]
  · rw [List.getD_append_right _ _ _ _ (Nat.le_of_not_lt hi), List.getD_eq_default (line ++ [0]) _
      (Nat.le_of_not_lt hi), List.getD_eq_getElem?_getD, List.getElem?_drop,
      ← List.getD_eq_getElem?_getD]
    congr 1
    omega

theorem getD_set (buf : Text) (k i : ℕ) (c : UInt8) :
    (buf.set k c).getD i 0 = if i = k ∧ k < buf.length then c else buf.getD i 0 := by
  rw [List.getD_eq_getElem?_getD, List.getElem?_set, List.getD_eq_getElem?_getD]
  by_cases hk : k = i
  · by_cases hl : i < buf.length
    · simp [hk, hl]
    · simp [hk, hl]
  · simp [hk, Ne.symm hk]

def Agree (touched : ℕ) (buf buf' : Text) : Prop :=
  ∀ i, i < touched ∨ httpMaxLen ≤ i → buf.getD i 0 = buf'.getD i 0

theorem Agree.read {touched : ℕ} {buf buf' : Text} (h : Agree touched buf buf') (line : Text) :
    Agree (max touched (line.length+1)) (readLine buf line) (readLine buf' line) := by
  intro i hi
  rw [getD_readLine, getD_readLine]
  by_cases hl : i < (line ++ [0]).length
  · rw [List.getD_eq_getElem _ _ hl, List.getD_eq_getElem _ _ hl]
  · rw [List.length_append, List.length_singleton] at hl
    rw [h i (by omega)]

theorem LineArray.agree (buf buf' : LineArray) : Agree 0 buf.cells buf'.cells := by
  intro i hi
  rw [List.getD_eq_default _ _ (by rw [buf.full]; omega), List.getD_eq_default _ _ (by rw [buf'.full]; omega)]

/-! ## Credentials of two runs -/

structure Same (s : Stale) (r r' : HttpReq) : Prop where
  method : r.method = r'.method
  path : r.path = r'.path
  query : r.query = r'.query
  host : r.host = r'.host
  vars : r.vars = r'.vars
  user : s.user = false → r.authUser = r'.authUser
  password : s.password = false → r.authPassword = r'.authPassword

theorem readHeader_basic (authBuf : ℕ → UInt8) (r : HttpReq) (text behind : Text) (h : isBasic text) :
    readHeader authBuf r text behind =
      storeCredentials r (authText (codedText text) (fun i => behind.getD i 0) authBuf) := by
  rw [readHeader, if_pos h.1]
  simp only
  rw [if_pos h.2]
  rfl

theorem readHeader_plain (authBuf : ℕ → UInt8) (text : Text) (h : ¬ isBasic text) :
    (∀ r behind, readHeader authBuf r text behind = r) ∨
      ∃ host, ∀ r behind, readHeader authBuf r text behind = { r with host := host } := by
  by_cases hkey : hasKey authorizationKey text
  · left
    intro r behind
    rw [readHeader, if_pos hkey]
    exact if_neg fun hb => h ⟨hkey, hb⟩
  · by_cases hhost : hasKey hostKey text
    · right
      refine ⟨strncpy (text.drop hostKey.length) HttpdRequest.httpMaxUrl, fun r behind => ?_⟩
      rw [readHeader, if_neg hkey, if_pos hhost]
    · left
      intro r behind
      rw [readHeader, if_neg hkey, if_neg hhost]

theorem staleHeader_basic (authBuf : ℕ → UInt8) (touched : ℕ) (s : Stale) (text : Text)
    (h : isBasic text) : staleHeader authBuf touched s text =
      { user := readsStale touched text
        password := if colon ∈ authText (codedText text) (fun _ => 0) authBuf
          then readsStale touched text else s.password } := if_pos h

theorem staleHeader_plain (authBuf : ℕ → UInt8) (touched : ℕ) (s : Stale) (text : Text)
    (h : ¬ isBasic text) : staleHeader authBuf touched s text = s := if_neg h

theorem storeCredentials_fields (r : HttpReq) (auth : Text) :
    (storeCredentials r auth).method = r.method ∧ (storeCredentials r auth).host = r.host := by
  rw [storeCredentials]
  split <;> exact ⟨rfl, rfl⟩

theorem storeCredentials_user (r r' : HttpReq) (auth : Text) :
    (storeCredentials r auth).authUser = (storeCredentials r' auth).authUser := by
  rw [storeCredentials, storeCredentials]
  split <;> rfl

theorem storeCredentials_password (r r' : HttpReq) (auth : Text) (h : colon ∈ auth) :
    (storeCredentials r auth).authPassword = (storeCredentials r' auth).authPassword := by
  obtain ⟨user, password, rfl, hu⟩ := List.eq_append_cons_of_mem h
  rw [storeCredentials, storeCredentials, strchr_append _ _ _ hu]

theorem storeCredentials_old (r : HttpReq) (auth : Text) (h : colon ∉ auth) :
    (storeCredentials r auth).authPassword = r.authPassword := by
  rw [storeCredentials, strchr_none _ _ h]

theorem Same.header {authBuf : ℕ → UInt8} {touched : ℕ} {s : Stale} {r r' : HttpReq} (h : Same s r r')
    (text behind behind' : Text)
    (hcell : readsStale touched text = false → LooksBehind (codedText text) →
      behind.getD 0 0 = behind'.getD 0 0) :
    Same (staleHeader authBuf touched s text) (readHeader authBuf r text behind)
      (readHeader authBuf r' text behind') := by
  by_cases hb : isBasic text
  · rw [readHeader_basic authBuf r text behind hb, readHeader_basic authBuf r' text behind' hb,
      staleHeader_basic authBuf touched s text hb]
    have hsame : readsStale touched text = false →
        authText (codedText text) (fun i => behind.getD i 0) authBuf =
          authText (codedText text) (fun i => behind'.getD i 0) authBuf :=
      fun hs => authText_only _ _ _ authBuf (hcell hs)
    have hcolon := colon_authText (codedText text) (fun i => behind.getD i 0) (fun _ => 0) authBuf
    have hcolon' := colon_authText (codedText text) (fun i => behind'.getD i 0) (fun _ => 0) authBuf
    generalize authText (codedText text) (fun i => behind.getD i 0) authBuf = auth at *
    generalize authText (codedText text) (fun i => behind'.getD i 0) authBuf = auth' at *
    have ht := storeCredentials_same r auth
    have ht' := storeCredentials_same r' auth'
    have hf := storeCredentials_fields r auth
    have hf' := storeCredentials_fields r' auth'
    constructor
    · rw [hf.1, hf'.1, h.method]
    · rw [ht.path, ht'.path, h.path]
    · rw [ht.query, ht'.query, h.query]
    · rw [hf.2, hf'.2, h.host]
    · rw [ht.vars, ht'.vars, h.vars]
    · intro hs
      rw [hsame hs]
      exact storeCredentials_user r r' auth'
    · by_cases hc : colon ∈ authText (codedText text) (fun _ => 0) authBuf
      · rw [if_pos hc]
        intro hs
        rw [hsame hs]
        exact storeCredentials_password r r' auth' (hcolon'.mpr hc)
      · rw [if_neg hc, storeCredentials_old r auth fun hm => hc (hcolon.mp hm),
          storeCredentials_old r' auth' fun hm => hc (hcolon'.mp hm)]
        exact h.password
  · rw [staleHeader_plain authBuf touched s text hb]
    rcases readHeader_plain authBuf text hb with hr | ⟨host, hr⟩
    · rw [hr, hr]
      exact h
    · rw [hr, hr]
      exact ⟨h.method, h.path, h.query, rfl, h.vars, h.user, h.password⟩

theorem getD_drop (buf : Text) (k i : ℕ) : (buf.drop k).getD i 0 = buf.getD (k+i) 0 := by
  rw [List.getD_eq_getElem?_getD, List.getElem?_drop, ← List.getD_eq_getElem?_getD]

theorem Same.headers {authBuf : ℕ → UInt8} {touched : ℕ} {s : Stale} {r r' : HttpReq}
    {buf buf' : Text} (h : Same s r r') (ha : Agree touched buf buf') (lines : List Text) :
    Same (staleHeaders authBuf touched s lines) (readHeaders authBuf buf r lines)
      (readHeaders authBuf buf' r' lines) := by
  induction lines generalizing touched s r r' buf buf' with
  | nil => exact h
  | cons line lines ih =>
    rw [readHeaders, readHeaders, staleHeaders]
    simp only [cString_readLine]
    by_cases he : cString line = []
    · rw [if_pos he, if_pos he, if_pos he]
      exact h
    · rw [if_neg he, if_neg he, if_neg he]
      have hread := ha.read line
      refine ih (h.header _ _ _ fun hs hlooks => ?_) hread
      rw [getD_drop, getD_drop, Nat.add_zero]
      apply hread
      by_contra hopen
      exact of_decide_eq_false hs ⟨hlooks, by omega, by omega⟩

/-! ## The first line -/

theorem length_readLine (buf line : Text) : line.length < (readLine buf line).length := by
  rw [readLine, List.length_append, List.length_cons]
  omega

theorem method_shorter (first : Text) (h : first.takeWhile isAlpha ≠ first) :
    (first.takeWhile isAlpha).length < first.length := by
  have hp := List.takeWhile_prefix (l := first) isAlpha
  exact Nat.lt_of_le_of_ne hp.length_le fun he => h (hp.eq_of_length he)

theorem request_inside (first : Text) (h : first.takeWhile isAlpha ≠ first) :
    ∃ target methodEnd targetEnd, methodEnd < first.length+1 ∧ targetEnd < first.length+1 ∧
      ∀ buf, requestTarget (readLine buf first) = target ∧
        cutRequestLine (readLine buf first) = ((readLine buf first).set methodEnd 0).set targetEnd 0 := by
  have hm := method_shorter first h
  let rest := first.drop ((first.takeWhile isAlpha).length+1)
  have hdrop : ∀ buf, (readLine buf first).drop ((first.takeWhile isAlpha).length+1) =
      rest ++ 0::buf.drop (first.length+1) := fun buf => List.drop_append_of_le_length hm
  have htarget : ∀ buf, requestTarget (readLine buf first) =
      (rest.dropWhile (· = blank)).takeWhile fun c => c ≠ blank ∧ c ≠ 0 := by
    intro buf
    rw [requestTarget, takeWhile_readLine, hdrop, dropWhile_stop _ (by decide),
      takeWhile_stop _ (by decide)]
  refine ⟨_, _, (first.takeWhile isAlpha).length+1+(rest.takeWhile (· = blank)).length+
    ((rest.dropWhile (· = blank)).takeWhile fun c => decide (c ≠ blank ∧ c ≠ 0)).length,
    Nat.lt_succ_of_lt hm, ?_, fun buf => ⟨htarget buf, ?_⟩⟩
  · have hrest : rest.length = first.length-((first.takeWhile isAlpha).length+1) := List.length_drop
    have hparts := congrArg List.length (List.takeWhile_append_dropWhile (p := (· = blank)) (l := rest))
    have hlast := (List.takeWhile_prefix (l := rest.dropWhile (· = blank))
      fun c => decide (c ≠ blank ∧ c ≠ 0)).length_le
    rw [List.length_append] at hparts
    omega
  · simp only [cutRequestLine]
    rw [htarget, takeWhile_readLine, hdrop, takeWhile_stop _ (by decide)]

theorem Agree.set {touched : ℕ} {buf buf' : Text} (h : Agree touched buf buf') (k : ℕ)
    (hk : k < buf.length) (hk' : k < buf'.length) : Agree touched (buf.set k 0) (buf'.set k 0) := by
  intro i hi
  rw [getD_set, getD_set, h i hi]
  simp only [hk, hk', and_true]

theorem Agree.cut {first : Text} {touched : ℕ} {buf buf' : Text}
    (h : Agree touched (readLine buf first) (readLine buf' first)) (hf : first.takeWhile isAlpha ≠ first) :
    Agree touched (cutRequestLine (readLine buf first)) (cutRequestLine (readLine buf' first)) := by
  obtain ⟨target, methodEnd, targetEnd, hm, ht, hcut⟩ := request_inside first hf
  have hl := length_readLine buf first
  have hl' := length_readLine buf' first
  rw [(hcut buf).2, (hcut buf').2]
  apply (h.set methodEnd (by omega) (by omega)).set
  · rw [List.length_set]
    omega
  · rw [List.length_set]
    omega

def parsed (r : HttpReq) : Option Method × Text × Text × Text × Text × Text × Variables Text :=
  (r.method, r.path, r.query, r.host, r.authUser, r.authPassword, r.vars)

theorem Same.parsed {r r' : HttpReq} (h : Same ⟨false, false⟩ r r') :
    parsed (splitQuery r) = parsed (splitQuery r') := by
  rw [splitQuery, splitQuery, ← h.path]
  cases strchr HttpdRequest.questionMark r.path with
  | none =>
    simp only [HttpdStale.parsed, h.method, h.path, h.query, h.host, h.vars, h.user rfl, h.password rfl]
  | some p =>
    simp only [HttpdStale.parsed, h.method, h.host, h.vars, h.user rfl, h.password rfl]

theorem fromLines_same (authBuf : ℕ → UInt8) (lines : List Text) (h : FromLines authBuf lines)
    (buf buf' : LineArray) :
    (httpdReadRequest buf.cells authBuf lines).map parsed =
      (httpdReadRequest buf'.cells authBuf lines).map parsed := by
  cases lines with
  | nil => rfl
  | cons first lines =>
    simp only [httpdReadRequest, readRequestLine, takeWhile_readLine]
    cases hm : requestMethod (first.takeWhile isAlpha) with
    | none => rfl
    | some method =>
      rcases h with h | ⟨hf, hs⟩
      · rw [h] at hm
        cases hm
      · obtain ⟨target, _, _, _, _, htarget⟩ := request_inside first hf
        have hread := ((buf.agree buf').read first).cut hf
        rw [Nat.zero_max] at hread
        simp only [Option.map_some, (htarget _).1]
        rw [Option.some.injEq]
        apply Same.parsed
        rw [← hs]
        exact Same.headers ⟨rfl, rfl, rfl, rfl, rfl, fun _ => rfl, fun _ => rfl⟩ hread lines

/-! ## Content that shows -/

def zeros : LineArray := ⟨List.replicate httpMaxLen 0, List.length_replicate⟩

def slashes : LineArray := ⟨List.replicate httpMaxLen slash, List.length_replicate⟩

def Apart (touched : ℕ) (buf buf' : Text) : Prop :=
  ∀ i, touched ≤ i → i < httpMaxLen → buf.getD i 0 = 0 ∧ buf'.getD i 0 = slash

theorem apart_start : Apart 0 zeros.cells slashes.cells := by
  intro i _ hi
  rw [zeros, slashes]
  exact ⟨List.getD_replicate 0 hi, List.getD_replicate slash hi⟩

theorem Apart.read {touched : ℕ} {buf buf' : Text} (h : Apart touched buf buf') (line : Text) :
    Apart (max touched (line.length+1)) (readLine buf line) (readLine buf' line) := by
  intro i hi hlen
  have hl : (line ++ [0]).length ≤ i := by
    rw [List.length_append, List.length_singleton]
    omega
  rw [getD_readLine, getD_readLine, List.getD_eq_default _ _ hl, List.getD_eq_default _ _ hl]
  exact h i (by omega) hlen

theorem Apart.cut {first : Text} {touched : ℕ} {buf buf' : Text}
    (h : Apart touched (readLine buf first) (readLine buf' first)) (ht : first.length+1 ≤ touched)
    (hf : first.takeWhile isAlpha ≠ first) :
    Apart touched (cutRequestLine (readLine buf first)) (cutRequestLine (readLine buf' first)) := by
  obtain ⟨target, methodEnd, targetEnd, hm, hend, hcut⟩ := request_inside first hf
  intro i hi hlen
  rw [(hcut buf).2, (hcut buf').2, getD_set, getD_set, getD_set, getD_set, if_neg (by omega),
    if_neg (by omega), if_neg (by omega), if_neg (by omega)]
  exact h i hi hlen

structure Differ (s : Stale) (r r' : HttpReq) : Prop where
  user : s.user = true → r.authUser ≠ r'.authUser ∨ r.authPassword ≠ r'.authPassword
  password : s.password = true → r.authPassword ≠ r'.authPassword

theorem strncpy_longer (u : Text) (c : UInt8) (h : u.length ≤ 100) :
    strncpy u httpMaxAuth ≠ strncpy (u ++ [c]) httpMaxAuth := by
  have hshort : (u ++ [c]).length < httpMaxAuth := by
    rw [List.length_append, List.length_singleton, httpMaxAuth]
    omega
  rw [strncpy_short u httpMaxAuth (by rw [httpMaxAuth]; omega), strncpy_short _ _ hshort]
  intro he
  have hl := congrArg List.length he
  rw [List.length_append, List.length_singleton] at hl
  omega

theorem Differ.header {authBuf : ℕ → UInt8} {touched : ℕ} {s : Stale} {r r' : HttpReq}
    (h : Differ s r r') (text behind behind' : Text)
    (hcell : readsStale touched text = true → behind.getD 0 0 = 0 ∧ behind'.getD 0 0 = slash) :
    Differ (staleHeader authBuf touched s text) (readHeader authBuf r text behind)
      (readHeader authBuf r' text behind') := by
  by_cases hb : isBasic text
  · rw [readHeader_basic authBuf r text behind hb, readHeader_basic authBuf r' text behind' hb,
      staleHeader_basic authBuf touched s text hb]
    have hcolon := colon_authText (codedText text) (fun i => behind.getD i 0) (fun _ => 0) authBuf
    have hcolon' := colon_authText (codedText text) (fun i => behind'.getD i 0) (fun _ => 0) authBuf
    cases hs : readsStale touched text with
    | false =>
      refine ⟨fun hu => absurd hu Bool.false_ne_true, ?_⟩
      by_cases hc : colon ∈ authText (codedText text) (fun _ => 0) authBuf
      · rw [if_pos hc]
        exact fun hp => absurd hp Bool.false_ne_true
      · rw [if_neg hc, storeCredentials_old r _ fun hm => hc (hcolon.mp hm),
          storeCredentials_old r' _ fun hm => hc (hcolon'.mp hm)]
        exact h.password
    | true =>
      obtain ⟨h0, hslash⟩ := hcell hs
      have hlooks := (of_decide_eq_true hs).1
      have hlen := length_fixedPart _ hlooks.1
      have happ : cString [appended 0] = [] ∧ cString [appended slash] = [15] := by decide
      have hauth : authText (codedText text) (fun i => behind.getD i 0) authBuf =
          fixedPart (codedText text) := by
        rw [authText_behind _ _ authBuf hlooks, h0, happ.1, List.append_nil]
      have hauth' : authText (codedText text) (fun i => behind'.getD i 0) authBuf =
          fixedPart (codedText text) ++ [15] := by
        rw [authText_behind _ _ authBuf hlooks, hslash, happ.2]
      rw [hauth] at hcolon ⊢
      rw [hauth'] at hcolon' ⊢
      by_cases hc : colon ∈ fixedPart (codedText text)
      · have hpass : (storeCredentials r (fixedPart (codedText text))).authPassword ≠
            (storeCredentials r' (fixedPart (codedText text) ++ [15])).authPassword := by
          obtain ⟨u, p, hp, hu⟩ := List.eq_append_cons_of_mem hc
          have hp' := congrArg List.length hp
          rw [List.length_append, List.length_cons] at hp'
          rw [hp, List.append_assoc, List.cons_append, storeCredentials, storeCredentials,
            strchr_append _ _ _ hu, strchr_append _ _ _ hu]
          exact strncpy_longer p 15 (by omega)
        exact ⟨fun _ => .inr hpass, fun _ => hpass⟩
      · have hc' : colon ∉ fixedPart (codedText text) ++ [15] := fun hm => hc (hcolon.mpr (hcolon'.mp hm))
        rw [if_neg fun hm => hc (hcolon.mpr hm), storeCredentials, storeCredentials,
          strchr_none _ _ hc, strchr_none _ _ hc']
        exact ⟨fun _ => .inl (strncpy_longer _ 15 hlen), h.password⟩
  · rw [staleHeader_plain authBuf touched s text hb]
    rcases readHeader_plain authBuf text hb with hr | ⟨host, hr⟩
    · rw [hr, hr]
      exact h
    · rw [hr, hr]
      exact ⟨h.user, h.password⟩

theorem Differ.headers {authBuf : ℕ → UInt8} {touched : ℕ} {s : Stale} {r r' : HttpReq}
    {buf buf' : Text} (h : Differ s r r') (ha : Apart touched buf buf') (lines : List Text) :
    Differ (staleHeaders authBuf touched s lines) (readHeaders authBuf buf r lines)
      (readHeaders authBuf buf' r' lines) := by
  induction lines generalizing touched s r r' buf buf' with
  | nil => exact h
  | cons line lines ih =>
    rw [readHeaders, readHeaders, staleHeaders]
    simp only [cString_readLine]
    by_cases he : cString line = []
    · rw [if_pos he, if_pos he, if_pos he]
      exact h
    · rw [if_neg he, if_neg he, if_neg he]
      have hread := ha.read line
      refine ih (h.header _ _ _ fun hs => ?_) hread
      obtain ⟨-, htouched, hlen⟩ := of_decide_eq_true hs
      rw [getD_drop, getD_drop, Nat.add_zero]
      exact hread _ htouched hlen

def letterAt (k : ℕ) (h : k < httpMaxLen) : LineArray where
  cells := List.replicate k 0 ++ 0x61::List.replicate (httpMaxLen-k-1) 0
  full := by
    rw [List.length_append, List.length_cons, List.length_replicate, List.length_replicate]
    omega

theorem method_length (name : Text) (h : (requestMethod name).isSome) : name.length ≤ 4 := by
  rw [requestMethod] at h
  split_ifs at h with h1 h2
  · have hl := congrArg List.length h1
    rw [List.length_map] at hl
    exact hl.trans_le (by decide)
  · have hl := congrArg List.length h2
    rw [List.length_map] at hl
    exact Nat.le_of_eq hl
  · exact absurd h Bool.false_ne_true

theorem requestTarget_letters (first buf : Text) (h : first.takeWhile isAlpha = first) :
    requestTarget (readLine buf first) =
      ((buf.drop (first.length+1)).dropWhile (· = blank)).takeWhile fun c => c ≠ blank ∧ c ≠ 0 := by
  have hdrop : (readLine buf first).drop (first.length+1) = buf.drop (first.length+1) := by
    rw [readLine, List.append_cons]
    exact List.drop_left' (by rw [List.length_append, List.length_singleton])
  rw [requestTarget, takeWhile_readLine, h, hdrop]

theorem target_zeros (first : Text) (h : first.takeWhile isAlpha = first) :
    requestTarget (readLine zeros.cells first) = [] := by
  rw [requestTarget_letters first _ h, zeros, List.drop_replicate]
  cases httpMaxLen-(first.length+1) with
  | zero => rfl
  | succ n =>
    rw [List.replicate_succ, List.dropWhile_cons_of_neg (by decide),
      List.takeWhile_cons_of_neg (by decide)]

theorem target_letter (first : Text) (h : first.takeWhile isAlpha = first)
    (hl : first.length+1 < httpMaxLen) :
    requestTarget (readLine (letterAt (first.length+1) hl).cells first) = [0x61] := by
  have hlen : (List.replicate (first.length+1) (0 : UInt8)).length = first.length+1 :=
    List.length_replicate
  rw [requestTarget_letters first _ h, letterAt, List.drop_left' hlen,
    List.dropWhile_cons_of_neg (by decide), List.takeWhile_cons_of_pos (by decide)]
  cases httpMaxLen-(first.length+1)-1 with
  | zero => rfl
  | succ n => rw [List.replicate_succ, List.takeWhile_cons_of_neg (by decide)]

theorem readRequest_known (authBuf : ℕ → UInt8) (buf first : Text) (lines : List Text) (method : Method)
    (h : requestMethod (first.takeWhile isAlpha) = some method) :
    ∃ r, httpdReadRequest buf authBuf (first::lines) = some (splitQuery r) ∧
      r = readHeaders authBuf (cutRequestLine (readLine buf first))
        { HttpReq.fresh with
          method := some method
          path := HttpdRequest.httpdSanitiseUrl
            (strncpy (requestTarget (readLine buf first)) HttpdRequest.httpMaxUrl) } lines := by
  refine ⟨_, ?_, rfl⟩
  rw [httpdReadRequest, readRequestLine, takeWhile_readLine, h, Option.map_some, Option.map_some]

theorem splitQuery_path (r : HttpReq) (path : Text) (h : r.path = path)
    (hq : HttpdRequest.questionMark ∉ path) : (splitQuery r).path = path := by
  rw [splitQuery, h, strchr_none _ _ hq]
  exact h

theorem letters_differ (authBuf : ℕ → UInt8) (first : Text) (lines : List Text)
    (hm : (requestMethod (first.takeWhile isAlpha)).isSome) (h : first.takeWhile isAlpha = first) :
    ∃ buf buf' : LineArray, (httpdReadRequest buf.cells authBuf (first::lines)).map HttpReq.path = some [] ∧
      (httpdReadRequest buf'.cells authBuf (first::lines)).map HttpReq.path = some [0x61] := by
  have hlen := method_length _ hm
  rw [h] at hlen
  have hl : first.length+1 < httpMaxLen := Nat.lt_of_le_of_lt (Nat.succ_le_succ hlen) (by decide)
  obtain ⟨method, hmethod⟩ := Option.isSome_iff_exists.mp hm
  obtain ⟨r, hrun, hr⟩ := readRequest_known authBuf zeros.cells first lines method hmethod
  obtain ⟨r', hrun', hr'⟩ :=
    readRequest_known authBuf (letterAt (first.length+1) hl).cells first lines method hmethod
  refine ⟨zeros, letterAt (first.length+1) hl, ?_, ?_⟩
  · rw [hrun, Option.map_some, splitQuery_path r [] _ List.not_mem_nil]
    rw [hr, (readHeaders_same authBuf lines _ _).path, target_zeros first h]
    exact show HttpdRequest.httpdSanitiseUrl (strncpy [] HttpdRequest.httpMaxUrl) = [] by decide +kernel
  · rw [hrun', Option.map_some, splitQuery_path r' [0x61] _ (by decide)]
    rw [hr', (readHeaders_same authBuf lines _ _).path, target_letter first h hl]
    exact show HttpdRequest.httpdSanitiseUrl (strncpy [0x61] HttpdRequest.httpMaxUrl) = [0x61] by
      decide +kernel

theorem not_fromLines_differ (authBuf : ℕ → UInt8) (lines : List Text) (h : ¬ FromLines authBuf lines) :
    ∃ buf buf' : LineArray, (httpdReadRequest buf.cells authBuf lines).map parsed ≠
      (httpdReadRequest buf'.cells authBuf lines).map parsed := by
  cases lines with
  | nil => exact absurd trivial h
  | cons first lines =>
    obtain ⟨hm, hrest⟩ := not_or.mp h
    obtain ⟨method, hmethod⟩ := Option.ne_none_iff_exists'.mp hm
    by_cases hf : first.takeWhile isAlpha = first
    · obtain ⟨buf, buf', hp, hp'⟩ := letters_differ authBuf first lines
        (Option.isSome_iff_exists.mpr ⟨method, hmethod⟩) hf
      refine ⟨buf, buf', fun he => ?_⟩
      have hpath := congrArg (Option.map fun t => t.2.1) he
      rw [Option.map_map, Option.map_map] at hpath
      exact absurd (hp.symm.trans (hpath.trans hp')) (by decide)
    · obtain ⟨r, hrun, hr⟩ := readRequest_known authBuf zeros.cells first lines method hmethod
      obtain ⟨r', hrun', hr'⟩ := readRequest_known authBuf slashes.cells first lines method hmethod
      have hread := apart_start.read first
      rw [Nat.zero_max] at hread
      have hdiffer : Differ (staleHeaders authBuf (first.length+1) ⟨false, false⟩ lines) r r' := by
        rw [hr, hr']
        exact Differ.headers ⟨fun hs => absurd hs Bool.false_ne_true, fun hs => absurd hs Bool.false_ne_true⟩
          (hread.cut (Nat.le_refl _) hf) lines
      refine ⟨zeros, slashes, fun he => ?_⟩
      rw [hrun, hrun', Option.map_some, Option.map_some, Option.some.injEq] at he
      simp only [parsed, Prod.mk.injEq, splitQuery_credentials] at he
      obtain ⟨-, -, -, -, huser, hpassword, -⟩ := he
      apply hrest
      refine ⟨hf, ?_⟩
      generalize staleHeaders authBuf (first.length+1) ⟨false, false⟩ lines = s at hdiffer ⊢
      obtain ⟨user, password⟩ := s
      have hp : password = false := Bool.eq_false_of_not_eq_true fun hs => hdiffer.password hs hpassword
      have hu : user = false := Bool.eq_false_of_not_eq_true fun hs =>
        (hdiffer.user hs).elim (fun hn => hn huser) fun hn => hn hpassword
      rw [hu, hp]

/-- What is parsed is the same for every content of the array exactly on such lines. -/
theorem parsed_from_lines_iff (authBuf : ℕ → UInt8) (readBuf : Memory.Mem) (readBufPtr : ℕ)
    (net : Network) (extra : ℕ) :
    (∀ buf buf' : LineArray,
      (receiveRequest authBuf (net.stream.length+2+extra) buf.cells ⟨readBuf, readBufPtr, 0, net⟩).map
          (fun result => result.1.map parsed) =
        (receiveRequest authBuf (net.stream.length+2+extra) buf'.cells
          ⟨readBuf, readBufPtr, 0, net⟩).map fun result => result.1.map parsed) ↔
      FromLines authBuf (requestLines net.stream) := by
  have hrun : ∀ buf : LineArray,
      (receiveRequest authBuf (net.stream.length+2+extra) buf.cells ⟨readBuf, readBufPtr, 0, net⟩).map
        (fun result => result.1.map parsed) =
          some ((httpdReadRequest buf.cells authBuf (requestLines net.stream)).map parsed) := by
    intro buf
    obtain ⟨writes, hrun, -⟩ := receive_fresh authBuf buf.cells readBuf readBufPtr net extra
    rw [hrun]
    rfl
  constructor
  · intro h
    by_contra hn
    obtain ⟨buf, buf', hne⟩ := not_fromLines_differ authBuf _ hn
    have hsame := h buf buf'
    rw [hrun buf, hrun buf', Option.some.injEq] at hsame
    exact hne hsame
  · intro h buf buf'
    rw [hrun buf, hrun buf', fromLines_same authBuf _ h buf buf']

def bareMethod : Network := ⟨[⟨ascii "GET\n", by decide +kernel, by decide +kernel⟩], .closed⟩

theorem bare_method_stale : ∃ buf buf' : LineArray, ∃ r r' writes writes',
    receiveRequest (fun _ => 0) (bareMethod.stream.length+2) buf.cells ⟨fun _ => 0, 0, 0, bareMethod⟩ =
        some (some r, writes) ∧
      receiveRequest (fun _ => 0) (bareMethod.stream.length+2) buf'.cells
        ⟨fun _ => 0, 0, 0, bareMethod⟩ = some (some r', writes') ∧
      r.path = [] ∧ r'.path = [0x61] := by
  have hlines : requestLines bareMethod.stream = [ascii "GET"] := by decide +kernel
  obtain ⟨buf, buf', hp, hp'⟩ := letters_differ (fun _ => 0) (ascii "GET") [] (by decide +kernel)
    (by decide +kernel)
  obtain ⟨writes, hrun, -⟩ := receive_fresh (fun _ => 0) buf.cells (fun _ => 0) 0 bareMethod 0
  obtain ⟨writes', hrun', -⟩ := receive_fresh (fun _ => 0) buf'.cells (fun _ => 0) 0 bareMethod 0
  rw [hlines] at hrun hrun'
  obtain ⟨r, hr, hpath⟩ := Option.map_eq_some_iff.mp hp
  obtain ⟨r', hr', hpath'⟩ := Option.map_eq_some_iff.mp hp'
  rw [hr] at hrun
  rw [hr'] at hrun'
  exact ⟨buf, buf', r, r', writes, writes', hrun, hrun', hpath, hpath'⟩

end FasterConfig.HttpdStale
