import FasterConfig.HttpdFraming

/-!
# The header block

Header lines are appended to one array. The room left is computed from the
length each time, two octets short of the size, and what does not fit is cut
to it. The block therefore takes messages in full until the first one that
is too long, takes as much of this one as there is room, and is full.
-/

set_option autoImplicit false

namespace FasterConfig.HttpdHeaders
open FasterConfig.Strings FasterConfig.HttpdResponse FasterConfig.HttpdHead

def room (headers : Text) : ℕ := httpMaxHeaders-2-headers.length

def withNewline (msg : Text) : Text := if msg.getLast? = some newline then msg else msg ++ [newline]

theorem withNewline_ends (msg : Text) : (withNewline msg).getLast? = some newline := by
  rw [withNewline]
  split_ifs with h
  · exact h
  · exact List.getLast?_concat

theorem length_withNewline (msg : Text) :
    msg.length ≤ (withNewline msg).length ∧ (withNewline msg).length ≤ msg.length+1 := by
  rw [withNewline]
  split_ifs
  · omega
  · rw [List.length_append, List.length_singleton]
    omega

/-! ## One message -/

theorem addHeader_full (headers msg : Text) (h : room headers = 0) :
    addHeader headers msg = headers := by
  rw [room] at h
  simp only [addHeader, h, Nat.lt_irrefl, if_false]

theorem addHeader_room (headers msg : Text) (hm : msg ≠ []) (h : 0 < room headers) :
    addHeader headers msg = headers ++ withNewline (msg.take (room headers)) := by
  have hne : msg.take (room headers) ≠ [] := by
    rw [Ne, List.take_eq_nil_iff, not_or]
    exact ⟨Nat.pos_iff_ne_zero.mp h, hm⟩
  have hadd : addHeader headers msg =
      if (headers ++ msg.take (room headers)).getLast? = some newline then
        headers ++ msg.take (room headers)
      else headers ++ msg.take (room headers) ++ [newline] := if_pos h
  rw [hadd, List.getLast?_append_of_ne_nil _ hne, withNewline]
  by_cases hl : (msg.take (room headers)).getLast? = some newline
  · rw [if_pos hl, if_pos hl]
  · rw [if_neg hl, if_neg hl, List.append_assoc]

theorem addHeader_fits (headers msg : Text) (hm : msg ≠ []) (h : msg.length ≤ room headers) :
    addHeader headers msg = headers ++ withNewline msg := by
  have hpos := List.length_pos_iff.mpr hm
  rw [addHeader_room headers msg hm (by omega), List.take_of_length_le h]

def cut (headers msg : Text) : Text :=
  if room headers = 0 then [] else withNewline (msg.take (room headers))

theorem addHeader_cut (headers msg : Text) (h : room headers < msg.length) :
    addHeader headers msg = headers ++ cut headers msg ∧ room (headers ++ cut headers msg) = 0 := by
  have hm : msg ≠ [] := List.length_pos_iff.mp (by omega)
  rw [cut]
  by_cases hr : room headers = 0
  · rw [if_pos hr, List.append_nil]
    exact ⟨addHeader_full headers msg hr, hr⟩
  · rw [if_neg hr]
    constructor
    · exact addHeader_room headers msg hm (Nat.pos_of_ne_zero hr)
    · have hl := (length_withNewline (msg.take (room headers))).1
      have ht : (msg.take (room headers)).length = room headers := List.length_take_of_le (by omega)
      simp only [room, List.length_append] at *
      omega

structure Ended (headers : Text) : Prop where
  newline : headers.getLast? = some newline
  length : headers.length ≤ httpMaxHeaders-1

theorem addHeader_ended (headers msg : Text) (hm : msg ≠ []) (h : Ended headers) :
    Ended (addHeader headers msg) := by
  by_cases hr : room headers = 0
  · rw [addHeader_full headers msg hr]
    exact h
  · have hlen := (length_withNewline (msg.take (room headers))).2
    have ht := List.length_take_le (room headers) msg
    have hl := h.length
    rw [addHeader_room headers msg hm (Nat.pos_of_ne_zero hr)]
    constructor
    · rw [List.getLast?_append, withNewline_ends]
      rfl
    · simp only [room, List.length_append, httpMaxHeaders] at *
      omega

/-! ## All messages -/

def addAllHeaders (msgs : List Text) (r : Request) : Request :=
  msgs.foldl (fun r msg => httpdAddHeader msg r) r

theorem addAllHeaders_headers (msgs : List Text) (r : Request) :
    (addAllHeaders msgs r).response.headers = msgs.foldl addHeader r.response.headers := by
  induction msgs generalizing r with
  | nil => rfl
  | cons msg msgs ih => exact ih (httpdAddHeader msg r)

theorem foldl_full (msgs : List Text) (headers : Text) (h : room headers = 0) :
    msgs.foldl addHeader headers = headers := by
  induction msgs with
  | nil => rfl
  | cons msg msgs ih => rw [List.foldl_cons, addHeader_full headers msg h, ih]

theorem foldl_ended (msgs : List Text) (headers : Text) (hm : ∀ m ∈ msgs, m ≠ [])
    (h : Ended headers) : Ended (msgs.foldl addHeader headers) := by
  induction msgs generalizing headers with
  | nil => exact h
  | cons msg msgs ih =>
    exact ih _ (fun m hmem => hm m (List.mem_cons_of_mem msg hmem))
      (addHeader_ended headers msg (hm msg List.mem_cons_self) h)

/-- Where the messages in `fit` stand in full, nothing more was added, or the first that
does not fit was cut and all others are missing. -/
def Stopped (headers : Text) (rest : List Text) (last : Text) : Prop :=
  rest = [] ∧ last = [] ∨
    ∃ msg missing, rest = msg::missing ∧ room headers < msg.length ∧ last = cut headers msg

def InFull (headers : Text) (msgs : List Text) (after : Text) : Prop :=
  ∃ fit rest last, msgs = fit ++ rest ∧ after = headers ++ fit.flatMap withNewline ++ last ∧
    Stopped (headers ++ fit.flatMap withNewline) rest last

theorem foldl_inFull (msgs : List Text) (headers : Text) (hm : ∀ m ∈ msgs, m ≠ []) :
    InFull headers msgs (msgs.foldl addHeader headers) := by
  induction msgs generalizing headers with
  | nil => exact ⟨[], [], [], rfl, by simp, .inl ⟨rfl, rfl⟩⟩
  | cons msg msgs ih =>
    rw [List.foldl_cons]
    by_cases hf : msg.length ≤ room headers
    · rw [addHeader_fits headers msg (hm msg List.mem_cons_self) hf]
      obtain ⟨fit, rest, last, hmsgs, hafter, hstop⟩ :=
        ih (headers ++ withNewline msg) fun m hmem => hm m (List.mem_cons_of_mem msg hmem)
      rw [List.append_assoc headers, ← List.flatMap_cons] at hafter hstop
      exact ⟨msg::fit, rest, last, by rw [hmsgs, List.cons_append], hafter, hstop⟩
    · obtain ⟨hadd, hroom⟩ := addHeader_cut headers msg (Nat.lt_of_not_le hf)
      rw [hadd, foldl_full msgs _ hroom]
      refine ⟨[], msg::msgs, cut headers msg, rfl, by simp, .inr ⟨msg, msgs, rfl, ?_, ?_⟩⟩
      · simpa using Nat.lt_of_not_le hf
      · simp

/-! ## From the block of a request that was read -/

/-- The block that `httpdReadRequest` installs. -/
def installed : Text := ascii "Server: Seeed Technologies Embedded Server\n"

theorem installed_ended : Ended installed := ⟨by decide, by decide⟩

theorem redirect_headers (env : Environment) (url : Text) (text : Option Text) (r : Request) :
    (httpSendRedirect env url text r).response.headers =
      addHeader r.response.headers (ascii "Location: " ++ url) :=
  httpdOutput_headers env (cString env.template) _

theorem location_iff (headers url : Text) (h : Ended headers) (hn : newline ∉ url) :
    addHeader headers (ascii "Location: " ++ url) =
        headers ++ (ascii "Location: " ++ url ++ [newline]) ↔
      (ascii "Location: " ++ url).length ≤ room headers := by
  generalize hmsg : ascii "Location: " ++ url = msg
  have hm : msg ≠ [] := by
    rw [← hmsg]
    exact List.append_ne_nil_of_left_ne_nil (by decide) url
  have hlast : newline ∉ msg := by
    rw [← hmsg]
    exact newline_not_mem_append (by decide) hn
  have hline : withNewline msg = msg ++ [newline] :=
    if_neg fun hl => hlast (List.mem_of_getLast? hl)
  constructor
  · intro he
    have hlen := (addHeader_ended headers msg hm h).length
    rw [he] at hlen
    simp only [room, List.length_append, List.length_singleton, httpMaxHeaders] at *
    omega
  · intro hf
    rw [addHeader_fits headers msg hm hf, hline]

def answered (q : HttpdReadRequest.HttpReq) (ifModified : Text) (clientAddr : Inline)
    (msgs : List Text) : Request :=
  addAllHeaders msgs (.read q ifModified clientAddr)

theorem answered_headers (q : HttpdReadRequest.HttpReq) (ifModified : Text) (clientAddr : Inline)
    (msgs : List Text) :
    (answered q ifModified clientAddr msgs).response.headers = msgs.foldl addHeader installed :=
  addAllHeaders_headers msgs _

/-- What the calls leave in the block, and when a redirection still finds room in it. -/
theorem headers_in_full (q : HttpdReadRequest.HttpReq) (ifModified : Text) (clientAddr : Inline)
    (msgs : List Text) (hm : ∀ m ∈ msgs, m ≠ []) :
    InFull installed msgs (answered q ifModified clientAddr msgs).response.headers ∧
      (answered q ifModified clientAddr msgs).response.headers.getLast? = some newline ∧
      (answered q ifModified clientAddr msgs).response.headers.length ≤ httpMaxHeaders-1 ∧
      ∀ env url text, newline ∉ url →
        ((httpSendRedirect env url text (answered q ifModified clientAddr msgs)).response.headers =
            (answered q ifModified clientAddr msgs).response.headers ++
              (ascii "Location: " ++ url ++ [newline]) ↔
          url.length+10 ≤ room (answered q ifModified clientAddr msgs).response.headers) := by
  have hended := foldl_ended msgs installed hm installed_ended
  simp only [redirect_headers, answered_headers]
  refine ⟨foldl_inFull msgs installed hm, hended.newline, hended.length, ?_⟩
  intro env url text hn
  have hname : (ascii "Location: ").length = 10 := by decide
  rw [location_iff _ url hended hn, List.length_append, hname, Nat.add_comm]

theorem headers_in_full_expires :
    InFull installed [ascii "Expires: 0"]
      (answered .fresh [] HttpdFraming.localhost [ascii "Expires: 0"]).response.headers :=
  (headers_in_full .fresh [] HttpdFraming.localhost [ascii "Expires: 0"] (by decide)).1

theorem long_header_cut :
    ¬ ∀ (q : HttpdReadRequest.HttpReq) (ifModified : Text) (clientAddr : Inline) (msgs : List Text),
      (∀ m ∈ msgs, m ≠ []) → ∃ kept : List Text, kept.Sublist msgs ∧
        (answered q ifModified clientAddr msgs).response.headers =
          installed ++ kept.flatMap withNewline := by
  intro h
  have hlen : (List.replicate 2000 (0x61 : UInt8)).length = 2000 := List.length_replicate
  generalize List.replicate 2000 (0x61 : UInt8) = msg at hlen
  have hm : msg ≠ [] := List.length_pos_iff.mp (by omega)
  have hroom : room installed = 979 := by decide
  obtain ⟨kept, hk, he⟩ := h .fresh [] HttpdFraming.localhost [msg] (by simpa using hm)
  rw [answered_headers, List.foldl_cons, List.foldl_nil,
    (addHeader_cut installed msg (by omega)).1, cut, hroom, if_neg (by decide)] at he
  have hcut := congrArg List.length (List.append_cancel_left he)
  have hl := length_withNewline (msg.take 979)
  rw [List.length_take_of_le (by omega)] at hl
  rcases List.sublist_singleton.mp hk with rfl | rfl
  · rw [List.flatMap_nil, List.length_nil] at hcut
    omega
  · have hw := (length_withNewline msg).1
    rw [List.flatMap_singleton] at hcut
    omega

end FasterConfig.HttpdHeaders
