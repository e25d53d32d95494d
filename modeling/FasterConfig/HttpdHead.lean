import FasterConfig.HttpdResponse
import FasterConfig.LineBlocks

/-!
# The head of a response

A response is framed when it is one block of lines, the first of them the
status, and a body of the length that the block announces, if it announces
one. What is sent can be taken apart in one way only, so a head with a number
in it leaves one length for the body.
-/

set_option autoImplicit false

namespace FasterConfig.HttpdHead
open FasterConfig.Strings FasterConfig.HttpdVariables FasterConfig.HttpdReadRequest
open FasterConfig.HttpdResponse FasterConfig.LineBlocks

/-! ## Lines of a head -/

def statusLine (status : Text) : Text := ascii "HTTP/1.0 " ++ status

def contentLengthKey : Text := ascii "Content-Length: "

def contentLengthLine (n : ℕ) : Text := contentLengthKey ++ digits n

def isDigit (c : UInt8) : Bool := 0x30 ≤ c ∧ c ≤ 0x39

/-- Three digits and a blank, and no line end. -/
structure IsStatus (status : Text) : Prop where
  code : (status.take 3).all isDigit = true
  blank : status[3]? = some blank
  unbroken : newline ∉ status

instance (status : Text) : Decidable (IsStatus status) :=
  decidable_of_iff ((status.take 3).all isDigit = true ∧ status[3]? = some HttpdReadRequest.blank ∧
      newline ∉ status) ⟨fun h => ⟨h.1, h.2.1, h.2.2⟩, fun h => ⟨h.1, h.2, h.3⟩⟩

structure IsHeader (l : Text) : Prop extends IsLine newline l where
  named : colon ∈ l

structure Framing (out status : Text) (headers : List Text) (body : Text) : Prop where
  bytes : out = block newline (statusLine status::headers) ++ body
  isStatus : IsStatus status
  isHeader : ∀ l ∈ headers, IsHeader l
  announced : ∀ n, contentLengthLine n ∈ headers → body.length = n
  notModified : ascii "304" <+: status → body = []

def Framed (out : Text) : Prop := ∃ status headers body, Framing out status headers body

/-- What is sent is framed, and on the way there was no write behind an array. -/
structure Answered (r : Request) : Prop where
  inside : r.overrun = false
  framed : Framed r.sent

theorem answered_iff (r : Request) : Answered r ↔ r.overrun = false ∧ Framed r.sent :=
  ⟨fun h => ⟨h.inside, h.framed⟩, fun h => ⟨h.1, h.2⟩⟩

theorem newline_not_mem_append {s t : Text} (hs : newline ∉ s) (ht : newline ∉ t) :
    newline ∉ s ++ t := fun h => (List.mem_append.mp h).elim hs ht

theorem digit_octet (n : ℕ) (d : Char) (h : d ∈ Nat.toDigits 10 n) :
    (UInt8.ofNat d.toNat).toNat = d.toNat ∧ isDigit (UInt8.ofNat d.toNat) = true := by
  have hd := Char.isDigit_iff_toNat.mp (Nat.isDigit_of_mem_toDigits (by decide) (by decide) h)
  have hlo : 48 ≤ d.toNat := hd.1
  have hhi : d.toNat ≤ 57 := hd.2
  have he : (UInt8.ofNat d.toNat).toNat = d.toNat := by
    rw [UInt8.toNat_ofNat']
    omega
  have hdigit : 0x30 ≤ UInt8.ofNat d.toNat ∧ UInt8.ofNat d.toNat ≤ 0x39 := by
    rw [UInt8.le_iff_toNat_le, UInt8.le_iff_toNat_le, he]
    exact hd
  exact ⟨he, decide_eq_true hdigit⟩

theorem digits_digit (n : ℕ) (c : UInt8) (h : c ∈ digits n) : isDigit c = true := by
  obtain ⟨d, hd, rfl⟩ := List.mem_map.mp h
  exact (digit_octet n d hd).2

theorem chars_digits (n : ℕ) : (digits n).map (fun c => Char.ofNat c.toNat) = Nat.toDigits 10 n := by
  have hid : ∀ d ∈ Nat.toDigits 10 n, Char.ofNat (UInt8.ofNat d.toNat).toNat = id d := by
    intro d hd
    rw [(digit_octet n d hd).1, Char.ofNat_toNat, id]
  rw [digits, List.map_map]
  exact (List.map_congr_left hid).trans (List.map_id _)

theorem digits_injective : Function.Injective digits := by
  intro m n h
  have hd : Nat.toDigits 10 m = Nat.toDigits 10 n := by rw [← chars_digits m, ← chars_digits n, h]
  rw [← Nat.ofDigitChars_ten_toDigits (n := m), hd, Nat.ofDigitChars_ten_toDigits]

theorem newline_not_mem_digits (n : ℕ) : newline ∉ digits n := by
  intro h
  exact absurd (digits_digit n newline h) (by decide)

theorem newline_not_mem_decimal (v : ℤ) : newline ∉ decimal v := by
  cases v with
  | ofNat n => exact newline_not_mem_digits n
  | negSucc n => exact List.not_mem_cons_of_ne_of_not_mem (by decide) (newline_not_mem_digits (n+1))

/-- What a header line begins with, when it is not the one with the length. -/
structure IsName (name : Text) : Prop where
  nonempty : name ≠ []
  unbroken : newline ∉ name
  named : colon ∈ name
  short : name.length ≤ contentLengthKey.length
  other : ¬ name <+: contentLengthKey

instance (name : Text) : Decidable (IsName name) :=
  decidable_of_iff (name ≠ [] ∧ newline ∉ name ∧ colon ∈ name ∧
      name.length ≤ contentLengthKey.length ∧ ¬ name <+: contentLengthKey)
    ⟨fun h => ⟨h.1, h.2.1, h.2.2.1, h.2.2.2.1, h.2.2.2.2⟩, fun h => ⟨h.1, h.2, h.3, h.4, h.5⟩⟩

theorem isHeader_append {name value : Text} (hn : IsName name) (hv : newline ∉ value) :
    IsHeader (name ++ value) where
  nonempty := List.append_ne_nil_of_left_ne_nil hn.nonempty value
  unbroken := newline_not_mem_append hn.unbroken hv
  named := List.mem_append_left value hn.named

theorem ne_contentLengthLine {name : Text} (hn : IsName name) (value : Text) (n : ℕ) :
    name ++ value ≠ contentLengthLine n := by
  intro h
  have hkey : contentLengthKey <+: name ++ value := ⟨digits n, h.symm⟩
  exact hn.other (List.prefix_of_prefix_length_le (List.prefix_append name value) hkey hn.short)

theorem isHeader_contentLengthLine (n : ℕ) : IsHeader (contentLengthLine n) where
  nonempty := List.append_ne_nil_of_left_ne_nil (by decide) (digits n)
  unbroken := newline_not_mem_append (by decide) (newline_not_mem_digits n)
  named := List.mem_append_left (digits n) (by decide)

theorem contentLengthLine_inj (m n : ℕ) : contentLengthLine m = contentLengthLine n ↔ m = n := by
  constructor
  · intro h
    exact digits_injective (List.append_cancel_left h)
  · intro h
    rw [h]

/-! ## The head is sent once -/

def Plain (headers : List Text) : Prop :=
  ∀ l ∈ headers, IsHeader l ∧ ∀ n, l ≠ contentLengthLine n

structure Unsent (headers : List Text) (r : Request) : Prop where
  sent : r.sent = []
  headersSent : r.response.headersSent = false
  headersText : r.response.headers = ended newline headers
  contentType : newline ∉ r.response.contentType
  plain : Plain headers

structure Ready (status : Text) (headers : List Text) (r : Request) : Prop
    extends Unsent headers r where
  response : r.response.response = status ++ [newline]
  isStatus : IsStatus status

/-- A head that announces `n` octets, if `n` is positive, and then `body` has been sent. -/
structure Sent (status : Text) (n : ℤ) (body : Text) (r : Request) : Prop where
  headersSent : r.response.headersSent = true
  isStatus : IsStatus status
  head : ∃ headers, r.sent = block newline (statusLine status::headers) ++ body ∧
    (∀ l ∈ headers, IsHeader l) ∧ ∀ k : ℕ, contentLengthLine k ∈ headers ↔ 0 < n ∧ (k : ℤ) = n

theorem isLine_head {status : Text} {headers : List Text} (hs : IsStatus status)
    (hh : ∀ l ∈ headers, IsHeader l) : ∀ l ∈ statusLine status::headers, IsLine newline l := by
  intro l hl
  cases List.mem_cons.mp hl with
  | inl he =>
    rw [he]
    exact ⟨List.append_ne_nil_of_left_ne_nil (by decide) status, newline_not_mem_append (by decide) hs.unbroken⟩
  | inr hm => exact (hh l hm).toIsLine

theorem Sent.framed_iff {status : Text} {n : ℤ} {body : Text} {r : Request}
    (h : Sent status n body r) :
    Framed r.sent ↔ (n ≤ 0 ∨ (body.length : ℤ) = n) ∧ (ascii "304" <+: status → body = []) := by
  obtain ⟨headers, hsent, hheader, hlength⟩ := h.head
  constructor
  · rintro ⟨status', headers', body', hf⟩
    have hb := hf.bytes
    rw [hsent] at hb
    obtain ⟨hlines, rfl⟩ := block_inj newline (isLine_head h.isStatus hheader)
      (isLine_head hf.isStatus hf.isHeader) hb
    obtain ⟨hstatus, rfl⟩ := List.cons.inj hlines
    rw [List.append_cancel_left hstatus]
    refine ⟨?_, hf.notModified⟩
    by_cases hn : 0 < n
    · have hk := (hlength n.toNat).mpr ⟨hn, Int.toNat_of_nonneg (Int.le_of_lt hn)⟩
      have hl := hf.announced n.toNat hk
      omega
    · exact .inl (Int.not_lt.mp hn)
  · rintro ⟨hn, h304⟩
    refine ⟨status, headers, body, hsent, h.isStatus, hheader, ?_, h304⟩
    intro k hk
    obtain ⟨hpos, he⟩ := (hlength k).mp hk
    omega

theorem sent_netWrite {status : Text} {n : ℤ} {body : Text} {r : Request} (buf : Text)
    (h : Sent status n body r) : Sent status n (body ++ buf) (netWrite buf r) := by
  obtain ⟨headers, hsent, hheader, hlength⟩ := h.head
  refine ⟨h.headersSent, h.isStatus, headers, ?_, hheader, hlength⟩
  rw [netWrite, hsent, List.append_assoc]

theorem sent_addLength {status : Text} {n : ℤ} {body : Text} {r : Request} (k : ℕ)
    (h : Sent status n body r) : Sent status n body (addLength k r) := ⟨h.headersSent, h.isStatus, h.head⟩

theorem sent_headers {status : Text} {n : ℤ} {body : Text} {r : Request} (env : Environment)
    (k t : ℤ) (h : Sent status n body r) : sendHeaders env k t r = r := by
  rw [sendHeaders, if_pos h.headersSent]

theorem sent_text {status : Text} {n : ℤ} {body : Text} {r : Request} (msg : Text)
    (h : Sent status n body r) : Sent status n (body ++ msg) (sendText msg r) :=
  sent_netWrite msg (sent_addLength msg.length h)

theorem sent_texts {status : Text} {n : ℤ} {body : Text} {r : Request} (msgs : List Text)
    (h : Sent status n body r) :
    Sent status n (body ++ msgs.flatten) (msgs.foldl (fun r msg => sendText msg r) r) := by
  induction msgs generalizing body r with
  | nil => rwa [List.flatten_nil, List.append_nil]
  | cons msg msgs ih =>
    rw [List.flatten_cons, ← List.append_assoc]
    exact ih (sent_text msg h)

theorem sent_catFile {status : Text} {n : ℤ} {body : Text} {r : Request} (content : Text)
    (h : Sent status n body r) : Sent status n (body ++ content) (catFile content r) := by
  fun_induction catFile content r generalizing body with
  | case1 => rwa [List.append_nil]
  | case2 content r hc buf =>
    rename_i ih
    have hb := ih (sent_netWrite buf (sent_addLength buf.length h))
    rwa [List.append_assoc, List.take_append_drop] at hb

theorem sent_note {status : Text} {n : ℤ} {body : Text} {r : Request} (behind : Bool)
    (h : Sent status n body r) : Sent status n body (r.note behind) := ⟨h.headersSent, h.isStatus, h.head⟩

theorem sent_output {status : Text} {n : ℤ} {body : Text} {r : Request} (env : Environment)
    (msg : Text) (h : Sent status n body r) :
    Sent status n (body ++ expanded r.request.vars msg) (httpdOutput env msg r) := by
  rw [httpdOutput]
  have hadd := sent_addLength (expanded r.request.vars msg).length (sent_note (overruns r.request.vars msg) h)
  rw [if_pos hadd.headersSent]
  exact sent_netWrite _ hadd

/-! ## What the head is -/

def commonNames : List Text :=
  [ascii "Server: ", ascii "Location: ", ascii "Date: ", ascii "Connection: ",
   ascii "Content-Type: ", ascii "Last-Modified: "]

theorem isName_common : ∀ name ∈ commonNames, IsName name := by decide

def commonLines (env : Environment) (contentType : Text) : List Text :=
  [ascii "Date: " ++ env.date, ascii "Connection: close", ascii "Content-Type: " ++ contentType]

def entityLines (env : Environment) (n t : ℤ) : List Text :=
  if 0 < n then [ascii "Content-Length: " ++ decimal n, ascii "Last-Modified: " ++ env.timeString t]
  else []

theorem plain_append {headers more : List Text} (h : Plain headers) (hm : Plain more) :
    Plain (headers ++ more) := by
  intro l hl
  cases List.mem_append.mp hl with
  | inl hl => exact h l hl
  | inr hl => exact hm l hl

theorem plain_single {name value : Text} (hn : name ∈ commonNames) (hv : newline ∉ value) :
    Plain [name ++ value] := by
  intro l hl
  rw [List.mem_singleton.mp hl]
  exact ⟨isHeader_append (isName_common name hn) hv, ne_contentLengthLine (isName_common name hn) value⟩

theorem plain_common (env : Environment) (contentType : Text) (h : newline ∉ contentType) :
    Plain (commonLines env contentType) := by
  have hdate : Plain [ascii "Date: " ++ env.date] := plain_single (by decide) env.date.property
  have hclose : Plain [ascii "Connection: " ++ ascii "close"] := plain_single (by decide) (by decide)
  have htype : Plain [ascii "Content-Type: " ++ contentType] := plain_single (by decide) h
  exact plain_append hdate (plain_append hclose htype)

theorem sendHeaders_sent {status : Text} {headers : List Text} {r : Request} (env : Environment)
    (n t : ℤ) (h : Ready status headers r) :
    (sendHeaders env n t r).sent = block newline (statusLine status::
      (headers ++ (commonLines env r.response.contentType ++ entityLines env n t))) := by
  have hclose : ascii "Connection: close\n" = ascii "Connection: close" ++ [newline] := by decide
  have hfresh : ¬ r.response.headersSent = true := by rw [h.headersSent]; decide
  rw [sendHeaders, if_neg hfresh, block_cons, block, ended_append, ended_append, statusLine]
  by_cases hn : 0 < n
  · simp only [netWrite, if_pos hn, h.sent, h.response, h.headersText, hclose, commonLines,
      entityLines, ended_cons, ended_nil, List.append_assoc, List.nil_append, List.cons_append]
  · simp only [netWrite, if_neg hn, h.sent, h.response, h.headersText, hclose, commonLines,
      entityLines, ended_cons, ended_nil, List.append_assoc, List.nil_append, List.cons_append]

theorem mem_entityLines (env : Environment) (n t : ℤ) (k : ℕ) :
    contentLengthLine k ∈ entityLines env n t ↔ 0 < n ∧ (k : ℤ) = n := by
  rw [entityLines]
  by_cases hn : 0 < n
  · obtain ⟨m, rfl⟩ := Int.eq_ofNat_of_zero_le (Int.le_of_lt hn)
    have hl : ascii "Content-Length: " ++ decimal m = contentLengthLine m := rfl
    have hmod := ne_contentLengthLine (isName_common (ascii "Last-Modified: ") (by decide))
      (env.timeString t) k
    rw [if_pos hn, hl, and_iff_right hn, List.mem_cons, List.mem_singleton, contentLengthLine_inj,
      or_iff_left hmod.symm, Int.ofNat_inj]
  · rw [if_neg hn]
    exact iff_of_false List.not_mem_nil fun h => hn h.1

theorem isHeader_entityLines (env : Environment) (n t : ℤ) : ∀ l ∈ entityLines env n t, IsHeader l := by
  intro l hl
  rw [entityLines] at hl
  by_cases hn : 0 < n
  · obtain ⟨m, rfl⟩ := Int.eq_ofNat_of_zero_le (Int.le_of_lt hn)
    rw [if_pos hn, List.mem_cons, List.mem_singleton] at hl
    cases hl with
    | inl he =>
      rw [he]
      exact isHeader_contentLengthLine m
    | inr he =>
      rw [he]
      exact isHeader_append (isName_common (ascii "Last-Modified: ") (by decide))
        (env.timeString t).property
  · rw [if_neg hn] at hl
    exact absurd hl List.not_mem_nil

theorem sendHeaders_frame (env : Environment) (n t : ℤ) (r : Request) :
    ∃ head, sendHeaders env n t r = { r with
      response := { r.response with headersSent := true }, sent := r.sent ++ head } := by
  by_cases hr : r.response.headersSent = true
  · refine ⟨[], ?_⟩
    rw [sendHeaders, if_pos hr, List.append_nil, ← hr]
  · rw [sendHeaders, if_neg hr]
    by_cases hn : 0 < n
    · simp only [if_pos hn, netWrite, List.append_assoc]
      exact ⟨_, rfl⟩
    · simp only [if_neg hn, netWrite, List.append_assoc]
      exact ⟨_, rfl⟩

theorem sendHeaders_headersSent (env : Environment) (n t : ℤ) (r : Request) :
    (sendHeaders env n t r).response.headersSent = true := by
  obtain ⟨head, h⟩ := sendHeaders_frame env n t r
  rw [h]

theorem sendHeaders_request (env : Environment) (n t : ℤ) (r : Request) :
    (sendHeaders env n t r).request = r.request := by
  obtain ⟨head, h⟩ := sendHeaders_frame env n t r
  rw [h]

theorem sendHeaders_overrun (env : Environment) (n t : ℤ) (r : Request) :
    (sendHeaders env n t r).overrun = r.overrun := by
  obtain ⟨head, h⟩ := sendHeaders_frame env n t r
  rw [h]

theorem sendHeaders_headers (env : Environment) (n t : ℤ) (r : Request) :
    (sendHeaders env n t r).response.headers = r.response.headers := by
  obtain ⟨head, h⟩ := sendHeaders_frame env n t r
  rw [h]

theorem ready_headers {status : Text} {headers : List Text} {r : Request} (env : Environment)
    (n t : ℤ) (h : Ready status headers r) : Sent status n [] (sendHeaders env n t r) := by
  have hplain := plain_append h.plain (plain_common env r.response.contentType h.contentType)
  refine ⟨sendHeaders_headersSent env n t r, h.isStatus,
    headers ++ commonLines env r.response.contentType ++ entityLines env n t, ?_, ?_, ?_⟩
  · rw [sendHeaders_sent env n t h, List.append_nil, List.append_assoc]
  · intro l hl
    cases List.mem_append.mp hl with
    | inl hl => exact (hplain l hl).1
    | inr hl => exact isHeader_entityLines env n t l hl
  · intro k
    rw [List.mem_append, mem_entityLines]
    exact or_iff_right fun hk => (hplain _ hk).2 k rfl

/-- The test in front of the call is made again behind it. -/
theorem httpdOutput_eq (env : Environment) (msg : Text) (r : Request) :
    httpdOutput env msg r = netWrite (expanded r.request.vars msg)
      (httpdSendHeaders env (addLength (expanded r.request.vars msg).length
        (r.note (overruns r.request.vars msg)))) := by
  rw [httpdOutput]
  by_cases hr : (addLength (expanded r.request.vars msg).length
      (r.note (overruns r.request.vars msg))).response.headersSent = true
  · rw [if_pos hr, httpdSendHeaders, sendHeaders, if_pos hr]
  · rw [if_neg hr]

theorem httpdOutput_request (env : Environment) (msg : Text) (r : Request) :
    (httpdOutput env msg r).request = r.request := by
  rw [httpdOutput_eq]
  exact sendHeaders_request env _ 0 _

theorem httpdOutput_overrun (env : Environment) (msg : Text) (r : Request) :
    (httpdOutput env msg r).overrun = (r.overrun || overruns r.request.vars msg) := by
  rw [httpdOutput_eq]
  exact sendHeaders_overrun env _ 0 _

theorem httpdOutput_headers (env : Environment) (msg : Text) (r : Request) :
    (httpdOutput env msg r).response.headers = r.response.headers := by
  rw [httpdOutput_eq]
  exact sendHeaders_headers env _ 0 _

theorem ready_output {status : Text} {headers : List Text} {r : Request} (env : Environment)
    (msg : Text) (h : Ready status headers r) (hl : r.response.responseLength = 0) :
    Sent status (expanded r.request.vars msg).length (expanded r.request.vars msg)
      (httpdOutput env msg r) := by
  generalize hbuf : expanded r.request.vars msg = buf
  generalize hr : addLength buf.length (r.note (overruns r.request.vars msg)) = r'
  have hadd : Ready status headers r' := by
    rw [← hr]
    exact ⟨⟨h.sent, h.headersSent, h.headersText, h.contentType, h.plain⟩, h.response, h.isStatus⟩
  have hlen : r'.response.responseLength = buf.length := by
    rw [← hr, addLength, Request.note, hl, Nat.zero_add]
  have hsent := sent_netWrite buf (ready_headers env r'.response.responseLength 0 hadd)
  rw [hlen, List.nil_append] at hsent
  rw [httpdOutput_eq, hbuf, hr, httpdSendHeaders, hlen]
  exact hsent

end FasterConfig.HttpdHead
