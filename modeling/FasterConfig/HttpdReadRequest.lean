import FasterConfig.HttpdSanitise
import FasterConfig.HttpdDecode
import Mathlib.Logic.Function.Basic
import Mathlib.Tactic.IntervalCases

/-!
# Reading a request

The first line is scanned for method and target in the array the lines are
read into, the lines behind it are headers up to an empty one, and then the
path is split at its question mark. All of the target has been cleaned by
then, so the query of a request is what the cleaning has left of it.
-/

set_option autoImplicit false

namespace FasterConfig.HttpdReadRequest
open FasterConfig.Strings FasterConfig.HttpdVariables FasterConfig.HttpdRequest
open FasterConfig.HttpdSanitise FasterConfig.HttpdDecode

inductive Method where
  | get
  | post
  deriving DecidableEq, Repr

/-- The fields of the request that reading it sets; the struct starts out zeroed. -/
structure HttpReq where
  method : Option Method
  path : Text
  query : Text
  host : Text
  authUser : Text
  authPassword : Text
  authLength : ℕ
  vars : Variables Text
  deriving DecidableEq, Repr

def HttpReq.fresh : HttpReq := ⟨none, [], [], [], [], [], 0, []⟩

def httpMaxAuth : ℕ := 128

def blank : UInt8 := 0x20
def colon : UInt8 := 0x3a

def isAlpha (c : UInt8) : Bool := (0x41 ≤ c ∧ c ≤ 0x5a) ∨ (0x61 ≤ c ∧ c ≤ 0x7a)

def toLower (c : UInt8) : UInt8 := if 0x41 ≤ c ∧ c ≤ 0x5a then c+0x20 else c

/-! ## The first line -/

def requestMethod (name : Text) : Option Method :=
  if name.map toLower = [0x67, 0x65, 0x74] then some .get -- get
  else if name.map toLower = [0x70, 0x6f, 0x73, 0x74] then some .post -- post
  else none

/-- From behind the character that ends the method, wherever in the array that is. -/
def requestTarget (buf : Text) : Text :=
  ((buf.drop ((buf.takeWhile isAlpha).length+1)).dropWhile (· = blank)).takeWhile
    fun c => c ≠ blank ∧ c ≠ 0

def readRequestLine (r : HttpReq) (buf : Text) : Option HttpReq :=
  (requestMethod (buf.takeWhile isAlpha)).map fun method =>
    { r with
      method := some method
      path := httpdSanitiseUrl (strncpy (requestTarget buf) httpMaxUrl) }

/-- The array with the two zeros that end the method and the target in it. -/
def cutRequestLine (buf : Text) : Text :=
  let methodEnd := (buf.takeWhile isAlpha).length
  let target := methodEnd+1+((buf.drop (methodEnd+1)).takeWhile (· = blank)).length
  (buf.set methodEnd 0).set (target+(requestTarget buf).length) 0

/-! ## Headers -/

def hasKey (key line : Text) : Bool := (line.take key.length).map toLower = key

def authorizationKey : Text := -- "authorization: "
  [0x61, 0x75, 0x74, 0x68, 0x6f, 0x72, 0x69, 0x7a, 0x61, 0x74, 0x69, 0x6f, 0x6e, 0x3a, 0x20]

def hostKey : Text := [0x68, 0x6f, 0x73, 0x74, 0x3a, 0x20] -- "host: "

def basicKey : Text := [0x42, 0x61, 0x73, 0x69, 0x63, 0x20] -- "Basic "

/-- Only such characters are ever read into a line. -/
def asciiText (s : Text) : AsciiText :=
  ⟨s.filter fun c => 0 < c.toNat ∧ c.toNat < 128, fun c hc => by simpa using List.of_mem_filter hc⟩

/-- The string in the array of the decoder, whose memory held `authBuf` before. -/
def decodedText (d : Decoded) (authBuf : ℕ → UInt8) : Text :=
  cString ((List.range (d.nbytesdecoded+1)).map
    (d.writes.foldl (fun mem w => Function.update mem w.1 w.2) authBuf))

def storeCredentials (r : HttpReq) (auth : Text) : HttpReq :=
  match strchr colon auth with
  | some (user, password) =>
    { r with
      authLength := auth.length
      authUser := strncpy user httpMaxAuth
      authPassword := strncpy password httpMaxAuth }
  | none => { r with authLength := auth.length, authUser := strncpy auth httpMaxAuth }

/-- One header line; `behind` is what the array holds behind the string. The array `authBuf` has
no end here: credentials that go beyond it are stored as if nothing had happened. -/
def readHeader (authBuf : ℕ → UInt8) (r : HttpReq) (line behind : Text) : HttpReq :=
  if hasKey authorizationKey line then
    let cp := line.drop authorizationKey.length
    if basicKey <+: cp then
      storeCredentials r (decodedText
        (httpdDecode (asciiText (cp.drop basicKey.length)) (fun i => behind.getD i 0) 100) authBuf)
    else r
  else if hasKey hostKey line then
    { r with host := strncpy (line.drop hostKey.length) httpMaxUrl }
  else r

def readLine (buf line : Text) : Text := line ++ 0::buf.drop (line.length+1)

def readHeaders (authBuf : ℕ → UInt8) (buf : Text) (r : HttpReq) : List Text → HttpReq
  | [] => r
  | line::lines =>
    let buf := readLine buf line
    let text := cString buf
    if text = [] then r
    else readHeaders authBuf buf (readHeader authBuf r text (buf.drop (text.length+1))) lines

/-! ## The whole request -/

def splitQuery (r : HttpReq) : HttpReq :=
  match strchr questionMark r.path with
  | none => r
  | some (path, cp) =>
    { r with path := path, query := strncpy cp httpMaxUrl, vars := httpdStoreData r.vars cp }

/-- `lines` is what `_httpd_readLine` delivers, `buf` and `authBuf` the two arrays before. -/
def httpdReadRequest (buf : Text) (authBuf : ℕ → UInt8) (lines : List Text) : Option HttpReq :=
  match lines with
  | [] => some (splitQuery .fresh)
  | line::lines =>
    (readRequestLine .fresh (readLine buf line)).map fun r =>
      splitQuery (readHeaders authBuf (cutRequestLine (readLine buf line)) r lines)

/-! ## What headers leave alone -/

structure SameTarget (r r' : HttpReq) : Prop where
  path : r'.path = r.path
  query : r'.query = r.query
  vars : r'.vars = r.vars

theorem storeCredentials_same (r : HttpReq) (auth : Text) : SameTarget r (storeCredentials r auth) := by
  rw [storeCredentials]
  split <;> exact ⟨rfl, rfl, rfl⟩

theorem readHeader_same (authBuf : ℕ → UInt8) (r : HttpReq) (line behind : Text) :
    SameTarget r (readHeader authBuf r line behind) := by
  simp only [readHeader]
  split_ifs
  · exact storeCredentials_same r _
  · exact ⟨rfl, rfl, rfl⟩
  · exact ⟨rfl, rfl, rfl⟩
  · exact ⟨rfl, rfl, rfl⟩

theorem readHeaders_same (authBuf : ℕ → UInt8) (lines : List Text) (buf : Text) (r : HttpReq) :
    SameTarget r (readHeaders authBuf buf r lines) := by
  induction lines generalizing buf r with
  | nil => exact ⟨rfl, rfl, rfl⟩
  | cons line lines ih =>
    rw [readHeaders]
    split_ifs
    · exact ⟨rfl, rfl, rfl⟩
    · have h1 := readHeader_same authBuf r (cString (readLine buf line))
        ((readLine buf line).drop ((cString (readLine buf line)).length+1))
      have h2 := ih (readLine buf line) (readHeader authBuf r (cString (readLine buf line))
        ((readLine buf line).drop ((cString (readLine buf line)).length+1)))
      exact ⟨h2.path.trans h1.path, h2.query.trans h1.query, h2.vars.trans h1.vars⟩

/-! ## Request lines -/

def targetOf (path : Text) (query : Option Text) : Text :=
  path ++ query.elim [] fun q => questionMark::q

structure RequestLine where
  method : Text
  path : Text
  query : Option Text
  behind : Text
  known : (requestMethod method).isSome
  plain : questionMark ∉ path
  printable : ∀ c ∈ targetOf path query, 0x20 < c ∧ c < 0x7f
  nonempty : targetOf path query ≠ []
  short : (targetOf path query).length < httpMaxUrl
  ends : behind = [] ∨ ∃ t, behind = blank::t

def RequestLine.target (l : RequestLine) : Text := targetOf l.path l.query

def RequestLine.text (l : RequestLine) : Text := l.method ++ blank::(l.target ++ l.behind)

theorem isAlpha_of_toLower (c : UInt8) (h : 0x61 ≤ toLower c ∧ toLower c ≤ 0x7a) :
    isAlpha c = true := by
  have hall : ∀ c, 0x61 ≤ toLower c ∧ toLower c ≤ 0x7a → isAlpha c = true :=
    octet_induction (by decide +kernel)
  exact hall c h

theorem method_letters (name : Text) (h : (requestMethod name).isSome) :
    ∀ c ∈ name, isAlpha c = true := by
  intro c hc
  apply isAlpha_of_toLower
  have hm : toLower c ∈ name.map toLower := List.mem_map_of_mem hc
  have hall : ([0x67, 0x65, 0x74, 0x70, 0x6f, 0x73, 0x74] : Text).all
      (fun d => 0x61 ≤ d ∧ d ≤ 0x7a) = true := by decide
  apply of_decide_eq_true
  apply List.all_eq_true.mp hall
  rw [requestMethod] at h
  split_ifs at h with h1 h2
  · rw [h1] at hm
    exact List.mem_append_left [0x70, 0x6f, 0x73, 0x74] hm
  · rw [h2] at hm
    exact List.mem_append_right [0x67, 0x65, 0x74] hm
  · simp at h

theorem takeWhile_method (l : RequestLine) (stale : Text) :
    (l.text ++ 0::stale).takeWhile isAlpha = l.method := by
  rw [RequestLine.text, List.append_assoc, List.takeWhile_append_of_pos (method_letters _ l.known),
    List.cons_append, List.takeWhile_cons_of_neg (by decide), List.append_nil]

theorem requestTarget_line (l : RequestLine) (stale : Text) :
    requestTarget (l.text ++ 0::stale) = l.target := by
  have hchar : ∀ c ∈ l.target, c ≠ blank ∧ c ≠ 0 := by
    intro c hc
    have hp := (l.printable c hc).1
    constructor
    · rintro rfl
      exact absurd hp (by decide)
    · rintro rfl
      exact absurd hp (by decide)
  have hdrop : (l.text ++ 0::stale).drop (l.method.length+1) =
      l.target ++ (l.behind ++ 0::stale) := by
    simp [RequestLine.text, List.drop_append]
  have hstop : (l.behind ++ 0::stale).takeWhile (fun c => decide (c ≠ blank ∧ c ≠ 0)) = [] := by
    rcases l.ends with he | ⟨t, he⟩ <;> rw [he] <;> rfl
  rw [requestTarget, takeWhile_method, hdrop]
  cases ht : l.target with
  | nil => exact absurd ht l.nonempty
  | cons c t =>
    have hc : c ≠ blank := (hchar c (by simp [ht])).1
    rw [List.cons_append, List.dropWhile_cons_of_neg (by simpa using hc), ← List.cons_append, ← ht,
      List.takeWhile_append_of_pos (fun d hd => by simpa using hchar d hd), hstop, List.append_nil]

theorem splitQuery_target (r : HttpReq) (target : Text) (hq : r.query = []) (hv : r.vars = [])
    (hp : r.path = httpdSanitiseUrl (strncpy target httpMaxUrl)) :
    (splitQuery r).path = (readTarget target).path ∧
      (splitQuery r).query = (readTarget target).query ∧
      (splitQuery r).vars = (readTarget target).vars := by
  simp only [splitQuery, readTarget, ← hp]
  cases strchr questionMark r.path with
  | none => exact ⟨rfl, hq, hv⟩
  | some s => exact ⟨rfl, rfl, by rw [hv]⟩

/-- Whatever the arrays held and whatever headers follow, the target decides. -/
theorem httpdReadRequest_line (buf : Text) (authBuf : ℕ → UInt8) (l : RequestLine)
    (headers : List Text) :
    ∃ r, httpdReadRequest buf authBuf (l.text::headers) = some r ∧
      r.path = (readTarget l.target).path ∧ r.query = (readTarget l.target).query ∧
      r.vars = (readTarget l.target).vars := by
  obtain ⟨m, hm⟩ := Option.isSome_iff_exists.mp l.known
  simp only [httpdReadRequest, readRequestLine]
  generalize hb : readLine buf l.text = b
  rw [readLine] at hb
  rw [← hb, takeWhile_method, requestTarget_line, hm, Option.map_some, Option.map_some, hb]
  have hs := readHeaders_same authBuf headers (cutRequestLine b) { HttpReq.fresh with
    method := some m, path := httpdSanitiseUrl (strncpy l.target httpMaxUrl) }
  exact ⟨_, rfl, splitQuery_target _ l.target hs.query hs.vars hs.path⟩

/-! ## What fits the fields -/

theorem strncpy_lt (s : Text) : (strncpy s httpMaxUrl).length < httpMaxUrl :=
  Nat.lt_of_le_of_lt (List.length_take_le 1023 s) (Nat.lt_succ_self 1023)

theorem storeCredentials_host (r : HttpReq) (auth : Text) : (storeCredentials r auth).host = r.host := by
  rw [storeCredentials]
  split <;> rfl

theorem splitQuery_host (r : HttpReq) : (splitQuery r).host = r.host := by
  rw [splitQuery]
  split <;> rfl

theorem readHeader_host_lt (authBuf : ℕ → UInt8) (r : HttpReq) (line behind : Text)
    (h : r.host.length < httpMaxUrl) : (readHeader authBuf r line behind).host.length < httpMaxUrl := by
  simp only [readHeader]
  split_ifs
  · rw [storeCredentials_host]
    exact h
  · exact h
  · exact strncpy_lt _
  · exact h

theorem readHeaders_host_lt (authBuf : ℕ → UInt8) (lines : List Text) (buf : Text) (r : HttpReq)
    (h : r.host.length < httpMaxUrl) : (readHeaders authBuf buf r lines).host.length < httpMaxUrl := by
  induction lines generalizing buf r with
  | nil => exact h
  | cons line lines ih =>
    rw [readHeaders]
    split_ifs
    · exact h
    · exact ih _ _ (readHeader_host_lt authBuf r _ _ h)

structure Short (r : HttpReq) : Prop where
  host : r.host.length < httpMaxUrl
  path : r.path.length < httpMaxUrl
  query : r.query.length < httpMaxUrl
  vars : ValuesIn (fun v => v.length < httpMaxUrl) r.vars

theorem splitQuery_short (r : HttpReq) (target : Text) (hh : r.host.length < httpMaxUrl)
    (hq : r.query = []) (hv : r.vars = []) (hp : r.path = httpdSanitiseUrl (strncpy target httpMaxUrl)) :
    Short (splitQuery r) := by
  obtain ⟨hpath, hquery, hvars⟩ := splitQuery_target r target hq hv hp
  obtain ⟨hpath', hquery'⟩ := readTarget_short target
  exact ⟨splitQuery_host r ▸ hh, hpath ▸ hpath', hquery ▸ hquery', hvars ▸ readTarget_values target⟩

theorem readRequest_short (buf : Text) (authBuf : ℕ → UInt8) (lines : List Text) (q : HttpReq)
    (h : httpdReadRequest buf authBuf lines = some q) : Short q := by
  have hzero : HttpReq.fresh.host.length < httpMaxUrl := Nat.succ_pos 1023
  cases lines with
  | nil =>
    obtain rfl := Option.some.inj h
    have hnil : HttpReq.fresh.path = httpdSanitiseUrl (strncpy [] httpMaxUrl) :=
      (List.eq_nil_of_length_eq_zero (Nat.le_zero.mp (length_sanitiseUrl []))).symm
    exact splitQuery_short .fresh [] hzero rfl rfl hnil
  | cons line lines =>
    rw [httpdReadRequest] at h
    obtain ⟨r, hr, rfl⟩ := Option.map_eq_some_iff.mp h
    obtain ⟨method, -, rfl⟩ := Option.map_eq_some_iff.mp hr
    have hsame := readHeaders_same authBuf lines (cutRequestLine (readLine buf line)) { HttpReq.fresh with
      method := some method
      path := httpdSanitiseUrl (strncpy (requestTarget (readLine buf line)) httpMaxUrl) }
    exact splitQuery_short _ _ (readHeaders_host_lt authBuf lines _ _ hzero) hsame.query hsame.vars
      hsame.path

/-! ## Queries that come through -/

/-- What the line means: the cleaned path, the query as it is, and its variables. -/
structure Understood (l : RequestLine) (r : HttpReq) : Prop where
  path : r.path = httpdSanitiseUrl l.path
  query : r.query = l.query.getD []
  vars : r.vars = l.query.elim [] (httpdStoreData [])

def CleanQuery (query : Option Text) : Prop :=
  ∀ q, query = some q → ¬ [slash, slash] <:+: q ∧ ¬ [slash, dot, slash] <:+: q ∧
    ¬ [slash, dot, dot, slash] <:+: q

theorem clean_iff_free (q : Text) : (¬ [slash, slash] <:+: q ∧ ¬ [slash, dot, slash] <:+: q ∧
    ¬ [slash, dot, dot, slash] <:+: q) ↔ ∀ n ≤ 2, Free n q := by
  constructor
  · rintro ⟨h0, h1, h2⟩ n hn
    interval_cases n
    · exact (free_iff 0 q).mpr h0
    · exact (free_iff 1 q).mpr h1
    · exact (free_iff 2 q).mpr h2
  · intro h
    exact ⟨(free_iff 0 q).mp (h 0 (by decide)), (free_iff 1 q).mp (h 1 (by decide)),
      (free_iff 2 q).mp (h 2 (by decide))⟩

theorem sanitiseUrl_query (p q : Text) (h : ∀ n ≤ 2, Free n q) :
    httpdSanitiseUrl (p ++ questionMark::q) = httpdSanitiseUrl p ++ questionMark::q := by
  have hs : ∀ n ≤ 2, ∀ back s, sweep n back [] 0 (s ++ questionMark::q) =
      sweep n back [] 0 s ++ questionMark::q := fun n hn back s =>
    sweep_stop n back [] 0 s q questionMark (by decide) (by decide) (h n hn)
  rw [sanitiseUrl_sweeps, hs 0 (by decide), hs 1 (by decide), hs 2 (by decide), ← sanitiseUrl_sweeps]

theorem questionMark_not_mem_path (l : RequestLine) : questionMark ∉ httpdSanitiseUrl l.path :=
  fun h => l.plain (mem_sanitiseUrl l.path _ h)

theorem target_none (l : RequestLine) (h : l.query = none) : l.target = l.path := by
  simp [RequestLine.target, targetOf, h]

theorem target_some (l : RequestLine) (q : Text) (h : l.query = some q) :
    l.target = l.path ++ questionMark::q := by
  simp [RequestLine.target, targetOf, h]

theorem readTarget_clean (l : RequestLine) (h : CleanQuery l.query) :
    readTarget l.target =
      ⟨httpdSanitiseUrl l.path, l.query.getD [], l.query.elim [] (httpdStoreData [])⟩ := by
  have hm := questionMark_not_mem_path l
  have hshort : strncpy l.target httpMaxUrl = l.target := strncpy_short _ _ l.short
  rw [readTarget, hshort]
  cases hq : l.query with
  | none =>
    rw [target_none l hq, strchr_none _ _ hm]
    rfl
  | some q =>
    have hl := l.short
    rw [show targetOf l.path l.query = l.target from rfl, target_some l q hq, List.length_append,
      List.length_cons] at hl
    rw [target_some l q hq, sanitiseUrl_query _ _ ((clean_iff_free q).mp (h q hq)),
      strchr_append _ _ _ hm]
    simp only [strncpy_short q httpMaxUrl (by omega)]
    rfl

theorem clean_of_query (l : RequestLine) (h : (readTarget l.target).query = l.query.getD []) :
    CleanQuery l.query := by
  intro q hq
  apply (clean_iff_free q).mpr
  intro n hn
  rw [hq, Option.getD_some] at h
  rw [readTarget] at h
  cases hs : strchr questionMark (httpdSanitiseUrl (strncpy l.target httpMaxUrl)) with
  | none =>
    rw [hs] at h
    rw [← h]
    exact fun rest hr => absurd (List.suffix_nil.mp hr) (List.cons_ne_nil _ _)
  | some r =>
    have he := strchr_eq_append _ _ r hs
    have hl : r.2.length < httpMaxUrl := by
      have h1 := length_strchr _ _ r hs
      have h2 := length_sanitiseUrl (strncpy l.target httpMaxUrl)
      have h3 : (strncpy l.target httpMaxUrl).length ≤ 1023 := List.length_take_le _ _
      simp only [httpMaxUrl] at *
      omega
    rw [hs] at h
    simp only [strncpy_short r.2 httpMaxUrl hl] at h
    have hf := sanitiseUrl_free (strncpy l.target httpMaxUrl) n hn
    rw [he, h] at hf
    exact hf.suffix ((List.suffix_cons _ _).trans (List.suffix_append _ _))

theorem request_understood_iff (buf : Text) (authBuf : ℕ → UInt8) (l : RequestLine)
    (headers : List Text) :
    (∃ r, httpdReadRequest buf authBuf (l.text::headers) = some r ∧ Understood l r) ↔
      CleanQuery l.query := by
  obtain ⟨r, hr, hp, hq, hv⟩ := httpdReadRequest_line buf authBuf l headers
  constructor
  · rintro ⟨s, hs, hu⟩
    rw [hr] at hs
    obtain rfl := Option.some.inj hs
    exact clean_of_query l (hq.symm.trans hu.query)
  · intro hc
    have ht := readTarget_clean l hc
    rw [ht] at hp hq hv
    exact ⟨r, hr, hp, hq, hv⟩

def doubledSlash : RequestLine where
  method := [0x47, 0x45, 0x54]
  path := [slash, 0x61]
  query := some [0x75, 0x3d, slash, slash, 0x62]
  behind := []
  known := by decide
  plain := by decide
  printable := by decide +kernel
  nonempty := by decide
  short := by decide
  ends := .inl rfl

theorem doubled_slash_not_understood :
    (httpdReadRequest [] (fun _ => 0) [doubledSlash.text]).map HttpReq.query =
        some [0x75, 0x3d, slash, 0x62] ∧
      ¬ ∃ r, httpdReadRequest [] (fun _ => 0) [doubledSlash.text] = some r ∧
        Understood doubledSlash r := by
  have hr : (httpdReadRequest [] (fun _ => 0) [doubledSlash.text]).map HttpReq.query =
      some [0x75, 0x3d, slash, 0x62] := by decide +kernel
  refine ⟨hr, ?_⟩
  rintro ⟨r, hs, hu⟩
  rw [hs, Option.map_some, hu.query] at hr
  exact absurd hr (by decide)

end FasterConfig.HttpdReadRequest
