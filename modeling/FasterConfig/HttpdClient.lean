import FasterConfig.HttpdThread

/-!
# Clients of the web server

A client takes the URL of a redirection out of the head of the response, and
asks for it with one line for the target, one for the host and any others. The
server reads these lines as they were written, and the host from its line.
-/

set_option autoImplicit false

namespace FasterConfig.HttpdClient
open FasterConfig.Strings FasterConfig.HttpdReadRequest FasterConfig.LineBlocks
open FasterConfig.HttpdHead FasterConfig.HttpdFraming FasterConfig.HttpdThread
open FasterConfig.HttpdReadLine (carriageReturn takeLine streamLines)
open FasterConfig.HttpdReceive (wholeLines)
open FasterConfig.HttpdBase64 (isBasic CredentialsFit)
open FasterConfig.HttpdRequest (httpMaxUrl)
open FasterConfig.HttpdResponse (Environment newline decimal)
open FasterConfig.HttpdOutput (httpMaxLen)

/-! ## Where a response leads -/

def locationKey : Text := ascii "Location: "

def location (response : Text) : Option Text :=
  ((readBlock newline response).find? fun l => locationKey <+: l).map fun l => l.drop locationKey.length

theorem pageText_lines (env : Environment) {status : Text} {headers : List Text} (body : Text)
    (hs : IsStatus status) (hh : Plain headers) :
    readBlock newline (pageText env status headers body) = statusLine status::
      (headers ++ (commonLines env (ascii "text/html") ++ entityLines env body.length 0)) := by
  apply readBlock_block newline body
  apply isLine_head hs
  intro l hl
  rw [← List.append_assoc] at hl
  cases List.mem_append.mp hl with
  | inl hl => exact (plain_append hh (plain_common env _ (by decide)) l hl).1
  | inr hl => exact isHeader_entityLines env _ _ l hl

theorem location_redirect (env : Environment) (url body : Text) (hn : newline ∉ url) :
    location (pageText env redirectStatus [serverLine, locationLine url] body) = some (url.take 969) := by
  have hcut : newline ∉ url.take 969 := fun hm => hn (List.mem_of_mem_take hm)
  have hplain : Plain [serverLine, locationLine url] :=
    plain_append (plain_single (by decide) (by decide)) (plain_single (by decide) hcut)
  have hstatus : ¬ locationKey <+: statusLine redirectStatus := by decide
  have hserver : ¬ locationKey <+: serverLine := by decide
  have hline : locationKey <+: locationLine url := List.prefix_append _ _
  rw [location, pageText_lines env body (by decide) hplain]
  simp only [List.cons_append, List.find?_cons, hstatus, hserver, hline, decide_false, decide_true]
  exact congrArg some (List.drop_left' rfl)

theorem not_location (name value : Text) (hl : 2 ≤ name.length)
    (hn : name.take 2 ≠ locationKey.take 2) : ¬ locationKey <+: name ++ value := by
  intro h
  have htake := (List.prefix_iff_eq_take.mp ((List.take_prefix 2 locationKey).trans h))
  rw [show (locationKey.take 2).length = 2 from rfl, List.take_append_of_le_length hl] at htake
  exact hn htake.symm

theorem no_location (env : Environment) (n t : ℤ) : ∀ l ∈ statusLine okStatus::
    ([serverLine] ++ (commonLines env (ascii "text/html") ++ entityLines env n t)),
    ¬ locationKey <+: l := by
  have hfirst : ∀ l ∈ [statusLine okStatus, serverLine, ascii "Connection: close"],
      ¬ locationKey <+: l := by decide
  have hdate := not_location (ascii "Date: ") env.date (by decide) (by decide)
  have htype := not_location (ascii "Content-Type: ") (ascii "text/html") (by decide) (by decide)
  have hlength := not_location (ascii "Content-Length: ") (decimal n) (by decide) (by decide)
  have hmodified := not_location (ascii "Last-Modified: ") (env.timeString t) (by decide) (by decide)
  simp only [List.forall_mem_cons, List.not_mem_nil, false_implies, implies_true, and_true] at hfirst
  obtain ⟨hstatus, hserver, hclose⟩ := hfirst
  rw [commonLines, entityLines]
  split_ifs <;> simp [hstatus, hserver, hclose, hdate, htype, hlength, hmodified]

theorem location_page (env : Environment) (body : Text) :
    location (pageText env okStatus [serverLine] body) = none := by
  have hserver : Plain [serverLine] :=
    plain_single (show ascii "Server: " ∈ commonNames by decide) (by decide)
  rw [location, pageText_lines env body (by decide) hserver, List.find?_eq_none.mpr]
  · rfl
  · exact fun l hl => by simpa using no_location env body.length 0 l hl

theorem location_error (word : Text) : location (httpMethodError ++ word) = none := by
  have hcut : httpMethodError ++ word = block newline [] ++ (httpMethodError.drop 1 ++ word) := rfl
  rw [location, hcut, readBlock_block newline _ (by simp)]
  rfl

/-! ## What a client sends for it -/

def urlHost (url : Text) : Text := (url.drop 7).takeWhile (· ≠ slash)

/-- Without the fragment, which stays with the client. -/
def urlTarget (url : Text) : Text := ((url.drop 7).dropWhile (· ≠ slash)).takeWhile (· ≠ 0x23)

/-- A header line of the client, other than the one that names the host. -/
structure IsField (l : Text) : Prop where
  text : ∀ c ∈ l, 0x20 ≤ c ∧ c < 0x7f
  short : l.length < httpMaxLen
  other : hasKey hostKey l = false
  credentials : CredentialsFit l

def hostLine (url : Text) : Text := ascii "Host: " ++ urlHost url

def crlf : Text := [carriageReturn, newline]

def written (lines : List Text) : Text := lines.flatMap fun l => l ++ crlf

def fetch (fields : List Text) (url : Text) : Text :=
  written ((ascii "GET " ++ (urlTarget url ++ ascii " HTTP/1.1"))::hostLine url::(fields ++ [[]]))

theorem takeLine_written (len : ℤ) (text line rest : Text) (h : ∀ c ∈ line, 0x20 ≤ c ∧ c < 0x7f)
    (hl : text.length+line.length < len) :
    takeLine len text (line ++ (crlf ++ rest)) = (true, text ++ line, rest) := by
  induction line generalizing text with
  | nil =>
    have hlen : ¬ len ≤ text.length := by rw [List.length_nil] at hl; omega
    rw [List.nil_append, List.append_nil, crlf, List.cons_append, List.singleton_append, takeLine,
      if_neg hlen, if_neg (by decide), if_pos rfl, takeLine, if_neg hlen, if_pos (.inl rfl)]
  | cons c line ih =>
    obtain ⟨hlo, hhi⟩ := h c List.mem_cons_self
    have hlen : ¬ len ≤ text.length := by rw [List.length_cons] at hl; omega
    have hend : ¬ (c = HttpdReadLine.newline ∨ 127 < c) := by
      rintro (rfl | hc)
      · exact absurd hlo (by decide)
      · exact absurd hhi (UInt8.lt_asymm hc)
    have hcr : c ≠ carriageReturn := by
      rintro rfl
      exact absurd hlo (by decide)
    have hrest : ((text ++ [c]).length : ℤ)+line.length < len := by
      rw [List.length_cons] at hl
      rw [List.length_append, List.length_singleton]
      omega
    rw [List.cons_append, takeLine, if_neg hlen, if_neg hend, if_neg hcr,
      ih (text ++ [c]) (fun d hd => h d (List.mem_cons_of_mem c hd)) hrest, ← List.append_cons]

theorem written_cons (l : Text) (lines : List Text) :
    written (l::lines) = l ++ (crlf ++ written lines) := by
  rw [written, List.flatMap_cons, List.append_assoc, written]

theorem streamLines_written (len : ℤ) (hlen : 0 < len) (lines : List Text) (n : ℕ)
    (hn : lines.length ≤ n) (h : ∀ l ∈ lines, (∀ c ∈ l, 0x20 ≤ c ∧ c < 0x7f) ∧ l.length < len) :
    streamLines len n (written lines) = lines := by
  induction lines generalizing n with
  | nil =>
    cases n with
    | zero => rfl
    | succ n =>
      rw [written, List.flatMap_nil, streamLines, takeLine, decide_eq_false (by simpa using hlen)]
      rfl
  | cons l lines ih =>
    obtain ⟨n, rfl⟩ := Nat.exists_eq_add_of_le' (Nat.succ_le_of_lt (Nat.zero_lt_of_lt hn))
    obtain ⟨htext, hshort⟩ := h l List.mem_cons_self
    have hline := takeLine_written len [] l (written lines) htext (by simpa using hshort)
    rw [written_cons, streamLines]
    simp only [hline, if_true, List.nil_append]
    rw [ih n (Nat.le_of_succ_le_succ hn) fun m hm => h m (List.mem_cons_of_mem l hm)]

theorem wholeLines_line (text line rest : Text) (h : ∀ c ∈ line, 0x20 ≤ c ∧ c < 0x7f) :
    wholeLines text (line ++ (crlf ++ rest)) = (text ++ line)::wholeLines [] rest := by
  induction line generalizing text with
  | nil =>
    rw [List.nil_append, List.append_nil, crlf, List.cons_append, List.singleton_append, wholeLines,
      if_neg (by decide), if_pos rfl, wholeLines, if_pos (.inl rfl)]
  | cons c line ih =>
    obtain ⟨hlo, hhi⟩ := h c List.mem_cons_self
    have hend : ¬ (c = HttpdReadLine.newline ∨ 127 < c) := by
      rintro (rfl | hc)
      · exact absurd hlo (by decide)
      · exact absurd hhi (UInt8.lt_asymm hc)
    have hcr : c ≠ carriageReturn := by
      rintro rfl
      exact absurd hlo (by decide)
    rw [List.cons_append, wholeLines, if_neg hend, if_neg hcr,
      ih (text ++ [c]) fun d hd => h d (List.mem_cons_of_mem c hd), ← List.append_cons]

theorem wholeLines_written (lines : List Text) (h : ∀ l ∈ lines, ∀ c ∈ l, 0x20 ≤ c ∧ c < 0x7f) :
    wholeLines [] (written lines) = lines ++ [[]] := by
  induction lines with
  | nil => rfl
  | cons l lines ih =>
    rw [written_cons, wholeLines_line [] l _ (h l List.mem_cons_self),
      ih fun m hm => h m (List.mem_cons_of_mem l hm)]
    rfl

theorem length_written (lines : List Text) : lines.length ≤ (written lines).length := by
  induction lines with
  | nil => exact Nat.zero_le _
  | cons l lines ih =>
    rw [written_cons, List.length_append, List.length_append, List.length_cons]
    have hc : crlf.length = 2 := rfl
    omega

/-! ## What the server reads of it -/

theorem readHeader_host (authBuf : ℕ → UInt8) (r : HttpReq) (line behind : Text)
    (h : hasKey hostKey line = false) : (readHeader authBuf r line behind).host = r.host := by
  simp only [readHeader, h, Bool.false_eq_true, if_false]
  split_ifs
  · exact storeCredentials_host r _
  · rfl
  · rfl

theorem readHeaders_host (authBuf : ℕ → UInt8) (lines : List Text) (buf : Text) (r : HttpReq)
    (h : ∀ l ∈ lines, hasKey hostKey (cString l) = false) :
    (readHeaders authBuf buf r lines).host = r.host := by
  induction lines generalizing buf r with
  | nil => rfl
  | cons line lines ih =>
    have hline := h line List.mem_cons_self
    rw [← HttpdReceive.cString_readLine buf line] at hline
    rw [readHeaders]
    split_ifs
    · rfl
    · rw [ih _ _ fun l hl => h l (List.mem_cons_of_mem line hl), readHeader_host _ _ _ _ hline]

theorem hostLine_other (host : Text) : hasKey authorizationKey (ascii "Host: " ++ host) = false := by
  apply decide_eq_false
  intro he
  have hfirst : some (toLower 0x48) = some (0x61 : UInt8) := congrArg List.head? he
  exact absurd hfirst (by decide)

theorem readRequest_host (buf : Text) (authBuf : ℕ → UInt8) (line host : Text) (lines : List Text)
    (q : HttpReq) (hq : httpdReadRequest buf authBuf (line::(ascii "Host: " ++ host)::lines) = some q)
    (hz : 0 ∉ host) (hs : host.length < httpMaxUrl)
    (h : ∀ l ∈ lines, hasKey hostKey (cString l) = false) : q.host = host := by
  have hline : 0 ∉ ascii "Host: " ++ host := fun hm =>
    (List.mem_append.mp hm).elim (by decide) hz
  have hkey : hasKey hostKey (ascii "Host: " ++ host) = true := by
    rw [hasKey, List.take_append_of_le_length (by decide)]
    decide
  have hother := hostLine_other host
  simp only [httpdReadRequest] at hq
  obtain ⟨r, hr, rfl⟩ := Option.map_eq_some_iff.mp hq
  rw [splitQuery_host, readHeaders]
  simp only [HttpdReceive.cString_readLine, cString_self _ hline]
  rw [if_neg (by simp [ascii]), readHeaders_host _ _ _ _ h, readHeader, if_neg (by simp [hother]),
    if_pos hkey]
  exact strncpy_short _ _ hs

end FasterConfig.HttpdClient
