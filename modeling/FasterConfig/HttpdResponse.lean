import FasterConfig.HttpdEscape
import FasterConfig.HttpdPage
import FasterConfig.HttpdReadRequest
import FasterConfig.HttpdDispatch

/-!
# Responses

The head of a response is sent by whatever first has something to send, and a
flag keeps it from being sent again. The number it announces comes from there
too: the length of a page, the size of a file, nothing for an error. For
static data it is the time the server was started, which stands in the place
of the length. Pages and static data go through arrays of fixed size, and a
write behind one of these is recorded: what the process does from there on is
not settled.
-/

set_option autoImplicit false

namespace FasterConfig.HttpdResponse
open FasterConfig.Strings FasterConfig.HttpdVariables FasterConfig.HttpdRequest
open FasterConfig.HttpdContent FasterConfig.HttpdDispatch FasterConfig.HttpdPage
open FasterConfig.HttpdReadRequest FasterConfig.HttpdEscape

variable {H : Type*}

def newline : UInt8 := 0x0a

/-- Addresses, formatted times and what is read from the configuration by words. -/
abbrev Inline := { s : Text // newline ∉ s }

def httpMaxHeaders : ℕ := 1024

def maxBuf : ℕ := 4096

structure HttpRes where
  responseLength : ℕ
  headersSent : Bool
  headers : Text
  response : Text
  contentType : Text
  deriving DecidableEq, Repr

/-- `ifModified` is a field of the request that nothing sets; `sent` is what was written to
`clientSock`, and `overrun` tells that there was a write behind an array on the stack. What is sent
after that says nothing about the code. -/
structure Request where
  request : HttpReq
  ifModified : Text
  clientAddr : Inline
  response : HttpRes
  sent : Text
  overrun : Bool
  deriving DecidableEq, Repr

/-- `content` is what can be read of it, which is nothing for a directory. -/
structure File where
  stSize : ℤ
  stMtime : ℤ
  content : Text
  deriving DecidableEq, Repr

/-- What stands outside of the server; the template opens, and what `stat` finds does. -/
structure Environment where
  date : Inline
  timeString : ℤ → Inline
  template : Text
  htmlreurl : Inline
  gwAddress : Inline
  gwPort : ℤ
  arpGet : Text → Option Inline
  files : Text → Option File

inductive ErrorFunction where
  | httpCallback404
  deriving DecidableEq, Repr

/-- `page` is the title and the message that a content function has for its page. -/
structure Server (H : Type*) where
  content : HttpDir H
  page : H → Text × Text
  startTime : ℤ
  errorFunction304 : Option ErrorFunction
  errorFunction403 : Option ErrorFunction
  errorFunction404 : Option ErrorFunction

def callbackPage : Callback → Text × Text
  | .httpCallbackFasterconfig => (ascii "FasterConfig",
      ascii "Please use the menu to navigate the features of this FasterConfig installation.")

def start (startTime : ℤ) : Server Callback :=
  { content := registerAll startContent
    page := callbackPage
    startTime := startTime
    errorFunction304 := none
    errorFunction403 := none
    errorFunction404 := some .httpCallback404 }

/-- As `httpdGetConnection` makes it. -/
def Request.zeroed (clientAddr : Inline) : Request :=
  ⟨.fresh, [], clientAddr, ⟨0, false, [], [], []⟩, [], false⟩

/-- As `httpdReadRequest` leaves it. -/
def Request.read (request : HttpReq) (ifModified : Text) (clientAddr : Inline) : Request :=
  { request := request
    ifModified := ifModified
    clientAddr := clientAddr
    response :=
      { responseLength := 0
        headersSent := false
        headers := ascii "Server: Seeed Technologies Embedded Server\n"
        response := ascii "200 Output Follows\n"
        contentType := ascii "text/html" }
    sent := []
    overrun := false }

def Request.note (behind : Bool) (r : Request) : Request := { r with overrun := r.overrun || behind }

/-- What is written to the client, as far as that is settled. -/
def Request.output (r : Request) : Option Text := if r.overrun then none else some r.sent

/-! ## Head and output -/

def toInt (v : ℤ) : ℤ := v.bmod (2^32)

def digits (n : ℕ) : Text := (Nat.toDigits 10 n).map fun c => UInt8.ofNat c.toNat

def decimal : ℤ → Text
  | .ofNat n => digits n
  | .negSucc n => 0x2d::digits (n+1)

def netWrite (buf : Text) (r : Request) : Request := { r with sent := r.sent ++ buf }

def sendHeaders (env : Environment) (contentLength modTime : ℤ) (r : Request) : Request :=
  if r.response.headersSent then r
  else
    let r := { r with response := { r.response with headersSent := true } }
    let r := netWrite (ascii "HTTP/1.0 " ++ r.response.response ++ r.response.headers) r
    let r := netWrite (ascii "Date: " ++ env.date ++ [newline]) r
    let r := netWrite (ascii "Connection: close\n") r
    let r := netWrite (ascii "Content-Type: " ++ r.response.contentType ++ [newline]) r
    let r :=
      if 0 < contentLength then
        netWrite (ascii "Last-Modified: " ++ env.timeString modTime ++ [newline])
          (netWrite (ascii "Content-Length: " ++ decimal contentLength ++ [newline]) r)
      else r
    netWrite [newline] r

def httpdSendHeaders (env : Environment) (r : Request) : Request :=
  sendHeaders env r.response.responseLength 0 r

def addLength (n : ℕ) (r : Request) : Request :=
  { r with response := { r.response with responseLength := r.response.responseLength+n } }

def expanded (vars : Variables Text) (msg : Text) : Text :=
  (HttpdOutput.httpdOutput (firstValue vars) msg).body

def overruns (vars : Variables Text) (msg : Text) : Bool :=
  ¬ HttpdOutput.AllInside (HttpdOutput.httpdOutput (firstValue vars) msg).writes

def httpdOutput (env : Environment) (msg : Text) (r : Request) : Request :=
  let buf := expanded r.request.vars msg
  let r := r.note (overruns r.request.vars msg)
  let r := addLength buf.length r
  let r := if r.response.headersSent then r else httpdSendHeaders env r
  netWrite buf r

def sendText (msg : Text) (r : Request) : Request := netWrite msg (addLength msg.length r)

def sendHttpPage (env : Environment) (title message : Text) (r : Request) : Request :=
  httpdOutput env (cString env.template)
    { r with request := { r.request with vars := addPageVariables r.request.vars title message } }

/-! ## Redirection -/

def httpdSetResponse (msg : Text) (r : Request) : Request :=
  { r with response := { r.response with response := strncpy msg httpMaxUrl } }

def addHeader (headers msg : Text) : Text :=
  let size := httpMaxHeaders-2-headers.length
  if 0 < size then
    let headers := headers ++ msg.take size
    if headers.getLast? = some newline then headers else headers ++ [newline]
  else headers

def httpdAddHeader (msg : Text) (r : Request) : Request :=
  { r with response := { r.response with headers := addHeader r.response.headers msg } }

def redirectMessage (url : Text) : Text :=
  ascii "Please <a href='" ++ url ++ ascii "'>click here</a>."

def httpSendRedirect (env : Environment) (url : Text) (text : Option Text) (r : Request) : Request :=
  let r := httpdSetResponse (ascii "302 " ++ text.getD (ascii "Redirecting") ++ [newline]) r
  let r := httpdAddHeader (ascii "Location: " ++ url) r
  sendHttpPage env (text.getD (ascii "Redirection to message")) (redirectMessage url) r

/-- What the client asked for, cut to the array it is printed into. -/
def requestUrl (q : HttpReq) : Text :=
  (ascii "http://" ++ q.host ++ q.path ++ (if q.query = [] then [] else [questionMark]) ++
    q.query).take (maxBuf-2)

def urlFragment (env : Environment) (q : HttpReq) (clientAddr : Inline) : Text :=
  let mac := (env.arpGet clientAddr).elim [] fun mac => ascii "&mac=" ++ mac.val
  env.htmlreurl ++ ascii "/?gw_address=" ++ env.gwAddress ++ ascii "&gw_port=" ++
    decimal env.gwPort ++ ascii "&ip=" ++ clientAddr ++ mac ++ ascii "&url=" ++
    httpdUrlEncode (requestUrl q)

def redirectText : Text := ascii "Redirect to login page"

def httpCallback404 (env : Environment) (r : Request) : Request :=
  httpSendRedirect env (urlFragment env r.request r.clientAddr) (some redirectText) r

/-! ## Errors -/

/-- The function that the server has for an error, or else the stock response. -/
def sendError (env : Environment) (errorFunction : Option ErrorFunction) (response : Text)
    (msgs : List Text) (r : Request) : Request :=
  match errorFunction with
  | some .httpCallback404 => httpCallback404 env r
  | none =>
    let r := httpdSetResponse response r
    let r := sendHeaders env 0 0 r
    msgs.foldl (fun r msg => sendText msg r) r

def send304 (env : Environment) (server : Server H) (r : Request) : Request :=
  sendError env server.errorFunction304 (ascii "304 Not Modified\n") [] r

def send403 (env : Environment) (server : Server H) (r : Request) : Request :=
  sendError env server.errorFunction403 (ascii "403 Permission Denied\n")
    [ascii "<HTML><HEAD><TITLE>403 Permission Denied</TITLE></HEAD>\n",
     ascii "<BODY><H1>Access to the request URL was denied!</H1>\n"] r

def send404 (env : Environment) (server : Server H) (r : Request) : Request :=
  sendError env server.errorFunction404 (ascii "404 Not Found\n")
    [ascii "<HTML><HEAD><TITLE>404 Not Found</TITLE></HEAD>\n",
     ascii "<BODY><H1>The request URL was not found!</H1>\n", ascii "</BODY></HTML>\n"] r

/-! ## Static data and files -/

def checkLastModified (env : Environment) (modTime : ℤ) (r : Request) : Bool :=
  (env.timeString modTime).val ≠ r.ifModified

def sendStatic (env : Environment) (server : Server H) (data : Text) (r : Request) : Request :=
  let r := if checkLastModified env server.startTime r then r else send304 env server r
  -- the two numbers are the other way round here, and a 304 does not end it
  let r := sendHeaders env server.startTime (toInt data.length) r
  httpdOutput env data r

def suffixTypes : List (Text × Text) :=
  [(ascii ".gif", ascii "image/gif"), (ascii ".jpg", ascii "image/jpeg"),
   (ascii ".xbm", ascii "image/xbm"), (ascii ".png", ascii "image/png"),
   (ascii ".css", ascii "text/css")]

def strcasecmp (s t : Text) : Bool := s.map toLower = t.map toLower

def contentTypeOf (path contentType : Text) : Text :=
  match strrchr dot path with
  | none => contentType
  | some (_, suffix) =>
    suffixTypes.foldl (fun contentType p => if strcasecmp (dot::suffix) p.1 then p.2 else contentType)
      contentType

def setContentType (path : Text) (r : Request) : Request :=
  { r with response := { r.response with contentType := contentTypeOf path r.response.contentType } }

def catFile (content : Text) (r : Request) : Request :=
  if _h : content = [] then r
  else
    let buf := content.take HttpdOutput.httpMaxLen
    catFile (content.drop HttpdOutput.httpMaxLen) (netWrite buf (addLength buf.length r))
termination_by content.length
decreasing_by
  have hl := List.length_pos_iff.mpr _h
  simp only [List.length_drop, HttpdOutput.httpMaxLen]
  omega

def sendFile (env : Environment) (server : Server H) (path : Text) (r : Request) : Request :=
  let r := setContentType path r
  match env.files path with
  | none => send404 env server r
  | some sbuf =>
    if checkLastModified env (toInt sbuf.stMtime) r then
      catFile sbuf.content (sendHeaders env (toInt sbuf.stSize) (toInt sbuf.stMtime) r)
    else send304 env server r

def entryPath (path entryName : Text) : Text := strncpy (path ++ slash::entryName) httpMaxUrl

def sendDirectoryEntry (env : Environment) (server : Server H) (path entryName : Text) (r : Request) :
    Request :=
  sendFile env server (entryPath path entryName) r

/-! ## A request -/

def serve (env : Environment) (server : Server H) (r : Request) : Outcome H → Request
  | .nothing => r
  | .call function => sendHttpPage env (server.page function).1 (server.page function).2 r
  | .sendStatic data => sendStatic env server data r
  | .sendFile path => sendFile env server path r
  | .sendDirectoryEntry path entryName => sendDirectoryEntry env server path entryName r
  | .send404 => send404 env server r

def httpdProcessRequest (env : Environment) (server : Server H) (r : Request) : Request :=
  serve env server { r with response := { r.response with responseLength := 0 } }
    (HttpdDispatch.httpdProcessRequest server.content r.request.path)

end FasterConfig.HttpdResponse
