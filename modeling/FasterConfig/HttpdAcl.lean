import FasterConfig.DottedQuad
import FasterConfig.PrefixMask
import FasterConfig.HttpdFraming

/-!
# Access control

A list of address blocks is built by calls that append one entry or refuse;
a refused call leaves the list to its owner. A client is checked against the
entries in their order, and the first block that covers its address decides.
Without one, and for an address that cannot be read, access is denied.
-/

set_option autoImplicit false

namespace FasterConfig.HttpdAcl
open FasterConfig.Strings FasterConfig.Cidr FasterConfig.PrefixMask
open FasterConfig.HttpdRequest (httpMaxUrl)
open FasterConfig.HttpdResponse

def httpAclPermit : ℤ := 1
def httpAclDeny : ℤ := 2

structure HttpAcl where
  addr : BitVec 32
  len : BitVec 8
  action : BitVec 8
  deriving DecidableEq, Repr

/-- The loop over `count` makes the mask. -/
def isInCidrBlock (addr1 : BitVec 32) (len1 : ℤ) (addr2 : BitVec 32) (len2 : ℤ) : Bool :=
  if len2 < len1 then false
  else
    let mask := ones 32 len1.toNat <<< (32-len1).toNat
    addr1 &&& mask = addr2 &&& mask

/-- The list that `acl` points to after the call, and the one that is returned; an empty list
is NULL, and stays so for its owner. -/
def httpdAddAcl (acl : List HttpAcl) (cidr : Text) (action : ℤ) :
    List HttpAcl × Option (List HttpAcl) :=
  match scanCidr cidr with
  | none => (acl, none)
  | some (addr, len) =>
    if action ≠ httpAclPermit ∧ action ≠ httpAclDeny then (acl, none)
    else
      let cur := [⟨addr, len.setWidth 8, BitVec.ofInt 8 action⟩]
      if acl = [] then (acl, some cur) else (acl ++ cur, some (acl ++ cur))

def checkLoop (addr : BitVec 32) (len : ℤ) : List HttpAcl → ℤ
  | [] => httpAclDeny
  | cur::next =>
    if isInCidrBlock cur.addr cur.len.toInt addr len then cur.action.toInt
    else checkLoop addr len next

variable {H : Type*}

def httpdCheckAcl (env : Environment) (server : Server H) (r : Request) (acl : List HttpAcl) :
    ℤ × Request :=
  let action := match scanCidr r.clientAddr with
    | none => httpAclDeny
    | some (addr, len) => checkLoop addr len.toInt acl
  if action = httpAclDeny then (action, send403 env server r) else (action, r)

/-! ## What the calls ask for -/

inductive Action where
  | permit
  | deny
  deriving DecidableEq, Repr

def Action.code : Action → ℤ
  | .permit => httpAclPermit
  | .deny => httpAclDeny

def Refuses (cidr : Text) (action : ℤ) : Prop :=
  scanCidr cidr = none ∨ action ≠ httpAclPermit ∧ action ≠ httpAclDeny

/-- A call with a well-formed block and a known action, or one that is refused. -/
inductive Call where
  | rule (block : Block) (action : Action)
  | refused (cidr : Text) (action : ℤ) (h : Refuses cidr action)

def Call.cidr : Call → Text
  | .rule block _ => block.text
  | .refused cidr _ _ => cidr

def Call.action : Call → ℤ
  | .rule _ action => action.code
  | .refused _ action _ => action

def Call.rule? : Call → Option (Block × Action)
  | .rule block action => some (block, action)
  | .refused _ _ _ => none

def rules (calls : List Call) : List (Block × Action) := calls.filterMap Call.rule?

/-- The leading bits of the block are those of the client. -/
def Covers (block : Block) (client : Quad) : Prop :=
  ∀ i < block.length, block.quad.addr.getMsbD i = client.addr.getMsbD i

instance (block : Block) (client : Quad) : Decidable (Covers block client) :=
  inferInstanceAs (Decidable (∀ i < block.length, _))

def decision (calls : List Call) (client : Quad) : Action :=
  ((rules calls).find? fun r => Covers r.1 client).elim .deny Prod.snd

/-- The caller goes on with what it got back, or with the list that it had. -/
def addCall (acl : List HttpAcl) (c : Call) : List HttpAcl :=
  (httpdAddAcl acl c.cidr c.action).2.getD (httpdAddAcl acl c.cidr c.action).1

def addCalls (calls : List Call) : List HttpAcl := calls.foldl addCall []

/-! ## The list -/

def entry (r : Block × Action) : HttpAcl :=
  ⟨r.1.quad.addr, BitVec.ofNat 8 r.1.length, BitVec.ofInt 8 r.2.code⟩

theorem addAcl_refused (acl : List HttpAcl) (cidr : Text) (action : ℤ) (h : Refuses cidr action) :
    httpdAddAcl acl cidr action = (acl, none) := by
  rw [httpdAddAcl]
  rcases h with h | h
  · rw [h]
  · cases scanCidr cidr with
    | none => rfl
    | some r => exact if_pos h

theorem narrow_length (block : Block) :
    (BitVec.ofNat 32 block.length).setWidth 8 = BitVec.ofNat 8 block.length := by
  have h := block.length_le
  apply BitVec.eq_of_toNat_eq
  rw [BitVec.toNat_setWidth, BitVec.toNat_ofNat, BitVec.toNat_ofNat]
  omega

theorem addAcl_rule (acl : List HttpAcl) (block : Block) (action : Action) :
    httpdAddAcl acl block.text action.code =
      if acl = [] then (acl, some [entry (block, action)])
      else (acl ++ [entry (block, action)], some (acl ++ [entry (block, action)])) := by
  have ha : ¬ (action.code ≠ httpAclPermit ∧ action.code ≠ httpAclDeny) := by
    cases action <;> decide
  rw [httpdAddAcl, scanCidr_text]
  simp only [if_neg ha, narrow_length, entry]

theorem addCall_eq (acl : List HttpAcl) (c : Call) :
    addCall acl c = acl ++ (c.rule?.map entry).toList := by
  cases c with
  | rule block action =>
    rw [addCall, Call.cidr, Call.action, addAcl_rule]
    by_cases h : acl = []
    · rw [if_pos h, h]
      rfl
    · rw [if_neg h]
      rfl
  | refused cidr action h =>
    rw [addCall, Call.cidr, Call.action, addAcl_refused acl cidr action h]
    exact (List.append_nil acl).symm

theorem addCalls_from (calls : List Call) (acl : List HttpAcl) :
    calls.foldl addCall acl = acl ++ (rules calls).map entry := by
  induction calls generalizing acl with
  | nil => exact (List.append_nil acl).symm
  | cons c calls ih =>
    have hrules : rules (c::calls) = c.rule?.toList ++ rules calls := by cases c <;> rfl
    rw [List.foldl_cons, ih, addCall_eq, List.append_assoc, hrules, List.map_append]
    cases c.rule? <;> rfl

theorem addCalls_eq (calls : List Call) : addCalls calls = (rules calls).map entry :=
  addCalls_from calls []

/-! ## The check -/

theorem toInt_length (block : Block) : (BitVec.ofNat 8 block.length).toInt = block.length := by
  have h := block.length_le
  rw [BitVec.toInt_ofNat']
  exact Int.bmod_eq_of_le (by omega) (by omega)

theorem toInt_code (action : Action) : (BitVec.ofInt 8 action.code).toInt = action.code := by
  cases action <;> decide

theorem isInCidrBlock_entry (r : Block × Action) (client : Quad) :
    isInCidrBlock (entry r).addr (entry r).len.toInt client.addr 32 =
      decide (Covers r.1 client) := by
  have h := r.1.length_le
  have hmask : ones 32 (r.1.length : ℤ).toNat <<< (32-(r.1.length : ℤ)).toNat =
      highMask 32 r.1.length := by
    rw [highMask, Int.toNat_natCast, show (32-(r.1.length : ℤ)).toNat = 32-r.1.length by omega]
  rw [entry, isInCidrBlock, toInt_length, if_neg (by omega)]
  simp only [hmask, and_highMask_iff _ _ _ h]
  exact decide_eq_decide.mpr Iff.rfl

theorem checkLoop_rules (rs : List (Block × Action)) (client : Quad) :
    checkLoop client.addr 32 (rs.map entry) =
      ((rs.find? fun r => Covers r.1 client).elim .deny Prod.snd).code := by
  induction rs with
  | nil => rfl
  | cons r rs ih =>
    rw [List.map_cons, checkLoop, isInCidrBlock_entry, List.find?_cons, ih]
    by_cases hc : Covers r.1 client
    · rw [if_pos (decide_eq_true hc), decide_eq_true hc]
      exact toInt_code r.2
    · rw [if_neg (by simpa using hc), decide_eq_false hc]

theorem newline_not_mem_number {bound : ℕ} (n : Number bound) : newline ∉ n.val :=
  fun h => absurd (n.property.digits newline h) (by decide)

theorem newline_not_mem_quad (q : Quad) : newline ∉ q.text := by
  have hdot : newline ≠ HttpdRequest.dot := by decide
  simp [Quad.text, newline_not_mem_number, hdot]

def comingFrom (client : Quad) (r : Request) : Request :=
  { r with clientAddr := ⟨client.text, newline_not_mem_quad client⟩ }

/-! ## The denial -/

/-- Octets of a denial; the head is sent unless one has been sent before. -/
def denialText (env : Environment) (r : Request) : Text :=
  (if r.response.headersSent then []
    else ascii "HTTP/1.0 403 Permission Denied\n" ++ r.response.headers ++
      (ascii "Date: " ++ env.date.val ++ [newline]) ++ ascii "Connection: close\n" ++
      (ascii "Content-Type: " ++ r.response.contentType ++ [newline]) ++ [newline]) ++
    ascii "<HTML><HEAD><TITLE>403 Permission Denied</TITLE></HEAD>\n" ++
    ascii "<BODY><H1>Access to the request URL was denied!</H1>\n"

theorem send403_stock (env : Environment) (server : Server H) (r : Request)
    (h : server.errorFunction403 = none) :
    (send403 env server r).sent = r.sent ++ denialText env r := by
  have hresponse : strncpy (ascii "403 Permission Denied\n") httpMaxUrl =
      ascii "403 Permission Denied\n" := by decide
  have hline : ascii "HTTP/1.0 " ++ ascii "403 Permission Denied\n" =
      ascii "HTTP/1.0 403 Permission Denied\n" := by decide
  simp only [send403, h, sendError, List.foldl_cons, List.foldl_nil, sendText, netWrite, addLength,
    sendHeaders, httpdSetResponse, hresponse, denialText, ← hline]
  by_cases hr : r.response.headersSent = true
  · simp [hr]
  · simp [hr]

/-- The client has been refused: with the octets above, or by the function that the server has
for it. -/
def Denied (env : Environment) (server : Server H) (r r' : Request) : Prop :=
  match server.errorFunction403 with
  | none => r'.sent = r.sent ++ denialText env r
  | some .httpCallback404 => r' = httpCallback404 env r

theorem send403_denied (env : Environment) (server : Server H) (r : Request) :
    Denied env server r (send403 env server r) := by
  rw [Denied]
  cases h : server.errorFunction403 with
  | none => exact send403_stock env server r h
  | some f =>
    cases f with
    | httpCallback404 => simp only [send403, h, sendError]

def Settled (env : Environment) (server : Server H) (r r' : Request) : Action → Prop
  | .permit => r' = r
  | .deny => Denied env server r r'

theorem check_decision (env : Environment) (server : Server H) (r : Request) (client : Quad)
    (calls : List Call) :
    httpdCheckAcl env server (comingFrom client r) (addCalls calls) =
      ((decision calls client).code,
        if decision calls client = .deny then send403 env server (comingFrom client r)
        else comingFrom client r) := by
  have haction : checkLoop client.addr (32 : BitVec 32).toInt (addCalls calls) =
      (decision calls client).code := by
    rw [addCalls_eq, decision]
    exact checkLoop_rules (rules calls) client
  simp only [httpdCheckAcl, comingFrom, scanCidr_quad, haction]
  cases decision calls client with
  | permit => rfl
  | deny => rfl

/-- The first rule that covers the client decides, in the order of the calls, and a 403 is sent
when it denies; refused calls change nothing. -/
theorem acl_decides (env : Environment) (server : Server H) (r : Request) (client : Quad)
    (calls : List Call) :
    (∃ r', httpdCheckAcl env server (comingFrom client r) (addCalls calls) =
        ((decision calls client).code, r') ∧
      Settled env server (comingFrom client r) r' (decision calls client)) ∧
      ∀ acl cidr action, Refuses cidr action → httpdAddAcl acl cidr action = (acl, none) := by
  refine ⟨⟨_, check_decision env server r client calls, ?_⟩, addAcl_refused⟩
  cases decision calls client with
  | permit => rfl
  | deny => exact send403_denied env server (comingFrom client r)

def prefixOf (a : DnsServer.InAddr) (n : ℕ) (h : n ≤ 32) : Block :=
  ⟨DottedQuad.quad a, some ⟨digits n, DottedQuad.digits_number n h⟩⟩

theorem threeFields_refused : Refuses (ascii "10.0.0") httpAclPermit := .inl (by decide +kernel)

theorem sixteen_le : 16 ≤ 32 := by decide

theorem eight_le : 8 ≤ 32 := by decide

def officeCalls : List Call :=
  [.rule (prefixOf ⟨10, 1, 0, 0⟩ 16 sixteen_le) .deny,
   .refused (ascii "10.0.0") httpAclPermit threeFields_refused,
   .rule (prefixOf ⟨10, 0, 0, 0⟩ 8 eight_le) .permit]

def fromOffice (client : DnsServer.InAddr) : Request :=
  comingFrom (DottedQuad.quad client) (.zeroed HttpdFraming.localhost)

def checkOffice (client : DnsServer.InAddr) : ℤ × Request :=
  httpdCheckAcl HttpdFraming.plainEnvironment (start 0) (fromOffice client) (addCalls officeCalls)

theorem office_decided :
    checkOffice ⟨10, 2, 0, 9⟩ = (httpAclPermit, fromOffice ⟨10, 2, 0, 9⟩) ∧
      (checkOffice ⟨10, 1, 0, 9⟩).1 = httpAclDeny ∧
      (checkOffice ⟨10, 1, 0, 9⟩).2.sent =
        denialText HttpdFraming.plainEnvironment (fromOffice ⟨10, 1, 0, 9⟩) := by
  have hpermit : decision officeCalls (DottedQuad.quad ⟨10, 2, 0, 9⟩) = .permit := by decide +kernel
  have hdeny : decision officeCalls (DottedQuad.quad ⟨10, 1, 0, 9⟩) = .deny := by decide +kernel
  refine ⟨?_, ?_⟩
  · obtain ⟨r', hr, hs⟩ := (acl_decides HttpdFraming.plainEnvironment (start 0)
      (.zeroed HttpdFraming.localhost) (DottedQuad.quad ⟨10, 2, 0, 9⟩) officeCalls).1
    rw [hpermit] at hr hs
    rw [checkOffice, fromOffice, hr, hs]
    rfl
  · obtain ⟨r', hr, hs⟩ := (acl_decides HttpdFraming.plainEnvironment (start 0)
      (.zeroed HttpdFraming.localhost) (DottedQuad.quad ⟨10, 1, 0, 9⟩) officeCalls).1
    rw [hdeny] at hr hs
    rw [checkOffice, fromOffice, hr]
    exact ⟨rfl, hs⟩

end FasterConfig.HttpdAcl
