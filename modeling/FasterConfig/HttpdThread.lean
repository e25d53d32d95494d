import FasterConfig.HttpdBase64
import FasterConfig.HttpdFraming

/-!
# A thread of the web server

A thread reads the request of one connection, answers it and ends. What it
sends is settled by the octets that the client sends, however they are cut
into reads: the error text for a method that is not known, nothing for a path
without a slash, the page for the one name that is served, and for everything
else a redirection. This holds as long as the lines, the credentials and the
page keep to the arrays they are put into.
-/

set_option autoImplicit false

namespace FasterConfig.HttpdThread
open FasterConfig.Strings FasterConfig.HttpdReadRequest
open FasterConfig.HttpdReadLine (Network Reading httpdReadLine streamLines)
open FasterConfig.HttpdReceive FasterConfig.HttpdBase64 FasterConfig.HttpdResponse FasterConfig.HttpdHead
open FasterConfig.LineBlocks
open FasterConfig.HttpdFraming FasterConfig.HttpdDispatch
open FasterConfig.HttpdPage (addPageVariables)
open FasterConfig.HttpdContent (registerAll httpdFindContentDir httpdFindContentEntry segments latest)
open FasterConfig.HttpdOutput (httpMaxLen)
open FasterConfig.HttpdRequest (httpMaxUrl)

variable {H : Type*}

def httpMethodError : Text := ascii "\n<B>ERROR : Method Not Implemented</B>\n\n"

/-- What the arrays of the thread hold before, and what its client sends. -/
structure Peer where
  buf : Text
  authBuf : ℕ → UInt8
  net : Network

def sending (text : Text) : Network :=
  ⟨text.map fun c => ⟨[c], Nat.zero_lt_one, (by decide : 1 ≤ HttpdReadLine.httpReadBufLen)⟩, .closed⟩

theorem sending_stream (text : Text) : (sending text).stream = text := by
  rw [Network.stream, sending, List.flatMap_map]
  exact List.flatMap_singleton' text

/-- As `httpdGetConnection` leaves it. -/
def Peer.reading (peer : Peer) : Reading := ⟨fun _ => 0, 0, 0, peer.net⟩

/-- `cp` where the method is not known. -/
def methodName (peer : Peer) : Text :=
  match httpdReadLine (peer.net.stream.length+2) httpMaxLen peer.reading with
  | some (true, s, _) => (s.writes.foldl write peer.buf).takeWhile isAlpha
  | _ => []

def headerTexts (stream : Text) : List Text :=
  (((requestLines stream).drop 1).map cString).takeWhile fun text => text ≠ []

/-- What is read keeps to `buf` and to `authBuf`. -/
def ReadInside (stream : Text) (writes : List (UInt8 × ℕ)) : Prop :=
  Inside writes ∧ ∀ text ∈ headerTexts stream, CredentialsFit text

instance (stream : Text) (writes : List (UInt8 × ℕ)) : Decidable (ReadInside stream writes) :=
  inferInstanceAs (Decidable ((∀ w ∈ writes, w.2 < httpMaxLen) ∧ _))

/-- The thread up to the end of its request. -/
def threadHttpd (env : Environment) (server : Server H) (peer : Peer) (r : Request) : Request :=
  match receiveRequest peer.authBuf (peer.net.stream.length+2) peer.buf peer.reading with
  | some (some q, writes) =>
    (httpdProcessRequest env server (.read q r.ifModified r.clientAddr)).note
      (¬ ReadInside peer.net.stream writes)
  | some (none, writes) =>
    (netWrite (methodName peer) (netWrite httpMethodError r)).note (¬ ∀ w ∈ writes, w.2 < httpMaxLen)
  | none => r

/-! ## The octets decide -/

def Peer.request (peer : Peer) : Option HttpReq :=
  httpdReadRequest peer.buf peer.authBuf (requestLines peer.net.stream)

def firstWord (stream : Text) : Text := ((requestLines stream).headD []).takeWhile isAlpha

theorem methodName_eq (peer : Peer) : methodName peer = firstWord peer.net.stream := by
  obtain ⟨found, line, s, r', whole, lines, hrun, hw, hin, hlines, hsome, hnone⟩ :=
    readLine_call peer.reading (peer.net.stream.length+2) (Int.le_refl 0)
      (Nat.lt_of_lt_of_le (Nat.lt_succ_self _) (Nat.le_succ _))
  have hfirst := hlines peer.net.stream.length
  rw [methodName, hrun, firstWord, requestLines]
  change streamLines httpMaxLen (peer.net.stream.length+1) peer.net.stream = _ at hfirst
  rw [hfirst]
  cases found with
  | false => rfl
  | true =>
    simp only [if_true, List.headD_cons, (hsome rfl).2.2.1 peer.buf, takeWhile_readLine]

structure Peer.Kept (peer : Peer) : Prop where
  lines : ∀ line ∈ readThrough (wholeLines [] peer.net.stream), line.length < httpMaxLen
  credentials : peer.request.isSome → ∀ text ∈ headerTexts peer.net.stream, CredentialsFit text

theorem output_iff (r : Request) (out : Text) : r.output = some out ↔ r.overrun = false ∧ r.sent = out := by
  rw [Request.output]
  cases r.overrun <;> simp

theorem note_output (behind : Bool) (r : Request) (out : Text) :
    (r.note behind).output = some out ↔ behind = false ∧ r.output = some out := by
  rw [output_iff, output_iff, Request.note, Bool.or_eq_false_iff, and_comm (a := r.overrun = false), and_assoc]

theorem threadHttpd_output (env : Environment) (server : Server H) (peer : Peer) (r : Request)
    (hr : r.overrun = false) (out : Text) :
    (threadHttpd env server peer r).output = some out ↔ peer.Kept ∧ match peer.request with
      | some q => (httpdProcessRequest env server (.read q r.ifModified r.clientAddr)).output = some out
      | none => out = r.sent ++ (httpMethodError ++ firstWord peer.net.stream) := by
  obtain ⟨writes, hrun, hin⟩ := receive_fresh peer.authBuf peer.buf (fun _ => 0) 0 peer.net 0
  have hkept : peer.Kept ↔ Inside writes ∧
      (peer.request.isSome → ∀ text ∈ headerTexts peer.net.stream, CredentialsFit text) := by
    rw [hin]
    exact ⟨fun h => ⟨h.lines, h.credentials⟩, fun h => ⟨h.1, h.2⟩⟩
  rw [hkept, Peer.request, threadHttpd, Peer.reading, hrun]
  cases httpdReadRequest peer.buf peer.authBuf (requestLines peer.net.stream) with
  | some q =>
    have hread : ReadInside peer.net.stream writes ↔ Inside writes ∧
        ((some q).isSome → ∀ text ∈ headerTexts peer.net.stream, CredentialsFit text) :=
      and_congr_right fun _ => ⟨fun h _ => h, fun h => h Option.isSome_some⟩
    simp only [note_output, decide_eq_false_iff_not, not_not, hread]
  | none =>
    have hsent : (netWrite (methodName peer) (netWrite httpMethodError r)).output = some out ↔
        out = r.sent ++ (httpMethodError ++ firstWord peer.net.stream) := by
      rw [output_iff, netWrite, netWrite, methodName_eq, List.append_assoc]
      exact (and_iff_right hr).trans eq_comm
    simp only [note_output, decide_eq_false_iff_not, not_not, hsent, Option.isSome_none,
      Bool.false_eq_true, false_implies, and_true]
    exact Iff.rfl

/-! ## The server of the program -/

theorem latest_start (entry : Text) :
    latest startContent [] entry =
      if entry = fasterconfig then some ⟨[slash], fasterconfig, 0, .httpCallbackFasterconfig⟩
      else none := by
  have hroot : segments [slash] = [] := by decide
  have hsub : segments (slash::fasterconfig) ≠ [] := by decide
  have hname (r : HttpdContent.Registration Callback) (h0 : r.indexFlag = 0) :
      r.Matches entry ↔ r.name = entry := or_iff_right fun h => h.2 h0
  simp only [latest, startContent, List.reverse_cons, List.reverse_nil, List.nil_append,
    List.cons_append, List.find?_cons, hroot, hsub, hname, false_and, true_and, decide_false,
    List.find?_nil]
  by_cases he : entry = fasterconfig
  · rw [if_pos he, he, decide_eq_true rfl]
  · rw [if_neg he, decide_eq_false (Ne.symm he)]

/-- Whatever the directory, the last element of the path is looked for among the names of
the root. -/
theorem dispatch_path (path : Text) :
    HttpdDispatch.httpdProcessRequest (registerAll startContent) path =
      match strrchr slash (strncpy path httpMaxUrl) with
      | none => .nothing
      | some (_, entry) =>
        if strncpy entry httpMaxUrl = fasterconfig then .call .httpCallbackFasterconfig
        else .send404 := by
  rw [HttpdDispatch.httpdProcessRequest]
  cases strrchr slash (strncpy path httpMaxUrl) with
  | none => rfl
  | some cut =>
    have hfind := HttpdContent.find_registered startContent [] (strncpy cut.2 httpMaxUrl) (by decide)
    rw [NameTree.Dir.valueAt_nil] at hfind
    simp only [httpdFindContentDir, segments_cutAt, NameTree.Dir.find, hfind, latest_start]
    split_ifs <;> rfl

/-! ## Its answers -/

def pageText (env : Environment) (status : Text) (headers : List Text) (body : Text) : Text :=
  block newline (statusLine status::
    (headers ++ (commonLines env (ascii "text/html") ++ entityLines env body.length 0))) ++ body

theorem page_sent {status : Text} {headers : List Text} {r : Request} (env : Environment)
    (title message : Text) (h : Ready status headers r) (hl : r.response.responseLength = 0)
    (ht : r.response.contentType = ascii "text/html") :
    (sendHttpPage env title message r).sent = pageText env status headers
      (expanded (addPageVariables r.request.vars title message) (cString env.template)) := by
  rw [sendHttpPage, httpdOutput_eq, httpdSendHeaders, netWrite]
  generalize expanded (addPageVariables r.request.vars title message) (cString env.template) = body
  generalize hr : addLength body.length (Request.note _ { r with request :=
      { r.request with vars := addPageVariables r.request.vars title message } }) = r'
  have hready : Ready status headers r' := by
    rw [← hr]
    exact ⟨⟨h.sent, h.headersSent, h.headersText, h.contentType, h.plain⟩, h.response, h.isStatus⟩
  have hlen : r'.response.responseLength = body.length := by
    rw [← hr, addLength, Request.note, hl, Nat.zero_add]
  have htype : r'.response.contentType = ascii "text/html" := by
    rw [← hr]
    exact ht
  rw [sendHeaders_sent env _ 0 hready, hlen, htype, pageText]

def locationLine (url : Text) : Text := ascii "Location: " ++ url.take 969

theorem location_room (url : Text) : (ascii "Location: " ++ url).take 979 = locationLine url := by
  have hname : (ascii "Location: ").length = 10 := by decide
  rw [List.take_append, hname, List.take_of_length_le (by rw [hname]; decide), locationLine]

theorem ready_redirect (q : HttpReq) (clientAddr : Inline) (url : Text) (hn : newline ∉ url) :
    Ready redirectStatus [serverLine, locationLine url]
      (httpdAddHeader (ascii "Location: " ++ url)
        (httpdSetResponse (redirectStatus ++ [newline]) (.read q [] clientAddr))) := by
  have hready := ready_read q [] clientAddr
  have hset := unsent_response redirectStatus hready.toUnsent (by decide)
  have hmsg : newline ∉ ascii "Location: " ++ url := newline_not_mem_append (by decide) hn
  have hcut : newline ∉ url.take 969 := fun hm => hn (List.mem_of_mem_take hm)
  have hline := addHeader_line (ended newline [serverLine]) (ascii "Location: " ++ url) hmsg
    (by decide) (List.append_ne_nil_of_left_ne_nil (by decide) url)
  have hsize : httpMaxHeaders-2-(ended newline [serverLine]).length = 979 := by decide
  rw [hsize, location_room] at hline
  refine ⟨⟨hset.sent, hset.headersSent, ?_, hset.contentType, ?_⟩, hset.response, hset.isStatus⟩
  · rw [httpdAddHeader, hset.headersText, hline]
    simp only [ended_cons, ended_nil, List.append_assoc, List.cons_append, List.nil_append]
  · exact plain_append hready.plain (plain_single (by decide) hcut)

def fasterconfigPage (env : Environment) (q : HttpReq) : Text :=
  expanded (addPageVariables q.vars (callbackPage .httpCallbackFasterconfig).1
    (callbackPage .httpCallbackFasterconfig).2) (cString env.template)

/-- All that a client gets from the program for what it asked. -/
def answer (env : Environment) (clientAddr : Inline) (word : Text) : Option HttpReq → Text
  | none => httpMethodError ++ word
  | some q => match strrchr slash (strncpy q.path httpMaxUrl) with
    | none => []
    | some (_, entry) =>
      if strncpy entry httpMaxUrl = fasterconfig then
        pageText env okStatus [serverLine] (fasterconfigPage env q)
      else pageText env redirectStatus [serverLine, locationLine (urlFragment env q clientAddr)]
        (redirectPage env q clientAddr)

theorem redirect_sent (env : Environment) (q : HttpReq) (clientAddr : Inline) :
    (httpCallback404 env (.read q [] clientAddr)).sent =
      pageText env redirectStatus [serverLine, locationLine (urlFragment env q clientAddr)]
        (redirectPage env q clientAddr) := by
  have hready := ready_redirect q clientAddr (urlFragment env q clientAddr)
    (newline_not_mem_urlFragment env q clientAddr)
  have hpage := page_sent env redirectText (redirectUrlMessage env q clientAddr) hready rfl rfl
  rw [httpdAddHeader_request, httpdSetResponse_request] at hpage
  rw [httpCallback404_page, redirectPage, redirectVars]
  exact hpage

theorem request_answer (env : Environment) (startTime : ℤ) (q : HttpReq) (clientAddr : Inline)
    (word : Text) :
    (HttpdResponse.httpdProcessRequest env (start startTime) (.read q [] clientAddr)).sent =
      answer env clientAddr word (some q) := by
  have hready := ready_read q [] clientAddr
  have hprocess : HttpdResponse.httpdProcessRequest env (start startTime) (.read q [] clientAddr) =
      serve env (start startTime) (.read q [] clientAddr)
        (HttpdDispatch.httpdProcessRequest (registerAll startContent) q.path) := rfl
  simp only [hprocess, dispatch_path, answer]
  cases strrchr slash (strncpy q.path httpMaxUrl) with
  | none => exact hready.sent
  | some cut =>
    by_cases he : strncpy cut.2 httpMaxUrl = fasterconfig
    · simp only [if_pos he]
      exact page_sent env _ _ hready rfl rfl
    · simp only [if_neg he]
      exact redirect_sent env q clientAddr

def AnswerFits (env : Environment) (clientAddr : Inline) : Option HttpReq → Prop
  | none => True
  | some q => match strrchr slash (strncpy q.path httpMaxUrl) with
    | none => True
    | some (_, entry) =>
      if strncpy entry httpMaxUrl = fasterconfig then
        PageFits env q.vars (callbackPage .httpCallbackFasterconfig).1
          (callbackPage .httpCallbackFasterconfig).2
      else RedirectFits env q clientAddr

theorem request_inside_iff (env : Environment) (startTime : ℤ) (q : HttpReq) (clientAddr : Inline) :
    (HttpdResponse.httpdProcessRequest env (start startTime) (.read q [] clientAddr)).overrun = false ↔
      AnswerFits env clientAddr (some q) := by
  have hprocess : HttpdResponse.httpdProcessRequest env (start startTime) (.read q [] clientAddr) =
      serve env (start startTime) (.read q [] clientAddr)
        (HttpdDispatch.httpdProcessRequest (registerAll startContent) q.path) := rfl
  simp only [hprocess, dispatch_path, AnswerFits]
  cases strrchr slash (strncpy q.path httpMaxUrl) with
  | none => exact iff_of_true rfl trivial
  | some cut =>
    by_cases he : strncpy cut.2 httpMaxUrl = fasterconfig
    · simp only [if_pos he]
      exact page_inside_iff env _ _ rfl
    · simp only [if_neg he]
      exact redirect_inside_iff env rfl

theorem thread_output (env : Environment) (startTime : ℤ) (peer : Peer) (clientAddr : Inline) (out : Text) :
    (threadHttpd env (start startTime) peer (.zeroed clientAddr)).output = some out ↔
      peer.Kept ∧ AnswerFits env clientAddr peer.request ∧
        out = answer env clientAddr (firstWord peer.net.stream) peer.request := by
  rw [threadHttpd_output env (start startTime) peer (.zeroed clientAddr) rfl out]
  apply and_congr_right
  intro _
  cases peer.request with
  | none => exact (and_iff_right trivial).symm
  | some q =>
    have hsent := request_answer env startTime q clientAddr (firstWord peer.net.stream)
    have hinside := request_inside_iff env startTime q clientAddr
    exact (output_iff _ out).trans (and_congr hinside (by rw [← hsent]; exact eq_comm))

def pagePeer : Peer :=
  ⟨[], fun _ => 0, sending (ascii "GET /fasterconfig HTTP/1.0\nHost: portal\n\n")⟩

end FasterConfig.HttpdThread
