import FasterConfig.HttpdVariables
import Mathlib.Data.List.Infix

/-!
# Path, query and variables of a request

The target of the request line is cut to the size of the path field and
cleaned of doubled slashes and dot segments before it is split at the first
question mark. The query is then read into variables, with one array for all
names and the values unescaped where they stand.
-/

set_option autoImplicit false

namespace FasterConfig.HttpdRequest
open FasterConfig.Strings FasterConfig.HttpdVariables

def httpMaxUrl : ℕ := 1024

def dot : UInt8 := 0x2e
def questionMark : UInt8 := 0x3f

/-! ## Cleaning -/

def removeSlashes : Text → Text
  | [] => []
  | c::rest =>
    if c = slash ∧ rest.head? = some slash then removeSlashes rest else c::removeSlashes rest

def removeDots (url : Text) : Text :=
  match url with
  | [] => []
  | c::rest =>
    if c = slash ∧ [dot, slash] <+: rest then removeDots (rest.drop 1) else c::removeDots rest
termination_by url.length
decreasing_by all_goals simp only [List.length_drop, List.length_cons]; omega

/-- Catch `/../` with the path before it: `last` is where the last slash was written, and
stays there when the element behind it is removed. -/
def removeParents (dest : Text) (last : ℕ) (url : Text) : Text :=
  match url with
  | [] => dest
  | c::rest =>
    if c = slash ∧ [dot, dot, slash] <+: rest then removeParents (dest.take last) last (rest.drop 2)
    else removeParents (dest ++ [c]) (if c = slash then dest.length else last) rest
termination_by url.length
decreasing_by all_goals simp only [List.length_drop, List.length_cons]; omega

def httpdSanitiseUrl (url : Text) : Text := removeParents [] 0 (removeDots (removeSlashes url))

theorem length_removeSlashes (url : Text) : (removeSlashes url).length ≤ url.length := by
  induction url with
  | nil => exact Nat.le_refl _
  | cons c rest ih =>
    rw [removeSlashes]
    split_ifs <;> simp only [List.length_cons] <;> omega

theorem length_removeDots (url : Text) : (removeDots url).length ≤ url.length := by
  fun_induction removeDots url with
  | case1 => exact Nat.le_refl _
  | case2 c rest h ih =>
    simp only [List.length_drop, List.length_cons] at *
    omega
  | case3 c rest h ih =>
    simp only [List.length_cons]
    omega

theorem length_removeParents (dest : Text) (last : ℕ) (url : Text) :
    (removeParents dest last url).length ≤ dest.length+url.length := by
  fun_induction removeParents dest last url with
  | case1 => exact Nat.le_refl _
  | case2 dest last c rest h ih =>
    simp only [List.length_take, List.length_drop, List.length_cons] at *
    omega
  | case3 dest last c rest h ih =>
    simp only [dite_eq_ite, List.length_append, List.length_cons, List.length_nil] at *
    omega

theorem length_sanitiseUrl (url : Text) : (httpdSanitiseUrl url).length ≤ url.length := by
  have h1 := length_removeSlashes url
  have h2 := length_removeDots (removeSlashes url)
  have h3 := length_removeParents [] 0 (removeDots (removeSlashes url))
  rw [httpdSanitiseUrl]
  simp only [List.length_nil] at h3
  omega

/-! ## Values -/

def httpdFromHex (c : UInt8) : UInt8 :=
  if 0x30 ≤ c ∧ c ≤ 0x39 then c-0x30
  else if 0x41 ≤ c ∧ c ≤ 0x46 then c-0x41+10
  else c-0x61+10

/-- The loop of `_httpd_unescape` over the string `str` with the octets `q` written so far. A `%`
at the end of the string writes nothing and still counts: the octet of `str` at that
place stays. -/
def unescapeFrom (str q : Text) : Text → Text
  | [] => q
  | 0x25::[] => q ++ [str.getD q.length 0]
  | 0x25::h::[] => q ++ [httpdFromHex h*16]
  | 0x25::h::l::rest => unescapeFrom str (q ++ [httpdFromHex h*16+httpdFromHex l]) rest
  | c::rest => unescapeFrom str (q ++ [if c = 0x2b then 0x20 else c]) rest

def httpdUnescape : Option Text → Text
  | none => []
  | some str => cString (unescapeFrom str [] str)

theorem length_unescapeFrom (str q cs : Text) :
    (unescapeFrom str q cs).length ≤ q.length+cs.length := by
  fun_induction unescapeFrom str q cs with
  | case1 => exact Nat.le_refl _
  | case2 q => simp
  | case3 q h => simp
  | case4 q h l rest ih =>
    simp only [List.length_append, List.length_cons, List.length_nil] at *
    omega
  | case5 q c rest _ _ _ ih =>
    simp only [List.length_append, List.length_cons, List.length_nil] at *
    omega

theorem length_unescape (str : Text) : (httpdUnescape (some str)).length ≤ str.length := by
  have h1 := length_unescapeFrom str [] str
  have h2 := (List.takeWhile_prefix (l := unescapeFrom str [] str) (· ≠ 0)).length_le
  simp only [List.length_nil, Nat.zero_add] at h1
  exact le_trans h2 h1

/-! ## Query -/

/-- `var` is the whole array of the name, `cp2` the place in it, and `val` what stands
between the pointer of that name and the one that reads. -/
structure StoreState where
  var : Text
  cp2 : ℕ
  val : Option Text
  vars : Variables Text

def storeStep (s : StoreState) (c : UInt8) : StoreState :=
  if c = 0x3d then { s with var := s.var.set s.cp2 0, val := some [] }
  else if c = 0x26 then
    { s with
      cp2 := 0
      val := none
      vars := httpdAddVariable s.vars (cString s.var) (httpdUnescape s.val) }
  else match s.val with
    | some val => { s with val := some (val ++ [c]) }
    | none => { s with var := s.var.set s.cp2 c, cp2 := s.cp2+1 }

def storeRest (s : StoreState) : Variables Text :=
  match s.val with
  | some val => httpdAddVariable s.vars (cString s.var) (httpdUnescape (some val))
  | none => s.vars

def httpdStoreData (vars : Variables Text) (query : Text) : Variables Text :=
  storeRest (query.foldl storeStep ⟨List.replicate (query.length+1) 0, 0, none, vars⟩)

/-- Values so far, and the one being read with all that is left, stay below a bound. -/
structure Bounded (n left : ℕ) (s : StoreState) : Prop where
  val : ∀ val, s.val = some val → val.length+left ≤ n
  vars : ValuesIn (fun v => v.length ≤ n) s.vars

theorem length_unescape_le (n left : ℕ) (s : StoreState) (h : Bounded n left s) :
    (httpdUnescape s.val).length ≤ n := by
  cases hv : s.val with
  | none => exact Nat.zero_le n
  | some val =>
    have h1 := length_unescape val
    have h2 := h.val val hv
    omega

theorem storeStep_bounded (n left : ℕ) (s : StoreState) (c : UInt8) (hn : left ≤ n)
    (h : Bounded n (left+1) s) : Bounded n left (storeStep s c) := by
  unfold storeStep
  split_ifs with h1 h2
  · exact ⟨fun val hv => by simpa [← Option.some.inj hv] using hn, h.vars⟩
  · exact ⟨fun val hv => by simp at hv, h.vars.add _ _ (length_unescape_le n _ s h)⟩
  · cases hv : s.val with
    | none => exact ⟨fun val hw => by simp at hw, h.vars⟩
    | some val =>
      refine ⟨fun w hw => ?_, h.vars⟩
      have hb := h.val val hv
      rw [← Option.some.inj hw, List.length_append]
      simp only [List.length_cons, List.length_nil]
      omega

theorem storeAll_bounded (n : ℕ) (query : Text) (s : StoreState) (hn : query.length ≤ n)
    (h : Bounded n query.length s) : Bounded n 0 (query.foldl storeStep s) := by
  induction query generalizing s with
  | nil => exact h
  | cons c rest ih =>
    rw [List.length_cons] at hn
    exact ih _ (by omega) (storeStep_bounded n _ s c (by omega) h)

theorem storeData_values (query : Text) :
    ValuesIn (fun v => v.length ≤ query.length) (httpdStoreData [] query) := by
  have h := storeAll_bounded query.length query ⟨List.replicate (query.length+1) 0, 0, none, []⟩
    (Nat.le_refl _) ⟨fun val hv => by simp at hv, fun n v hv => by simp at hv⟩
  rw [httpdStoreData, storeRest]
  split
  · exact h.vars.add _ _ (by rename_i hv; rw [← hv]; exact length_unescape_le _ _ _ h)
  · exact h.vars

/-! ## Target -/

structure Request where
  path : Text
  query : Text
  vars : Variables Text

def readTarget (target : Text) : Request :=
  let path := httpdSanitiseUrl (strncpy target httpMaxUrl)
  match strchr questionMark path with
  | none => ⟨path, [], []⟩
  | some (path, cp) => ⟨path, strncpy cp httpMaxUrl, httpdStoreData [] cp⟩

theorem readTarget_short (target : Text) :
    (readTarget target).path.length < httpMaxUrl ∧ (readTarget target).query.length < httpMaxUrl := by
  have hl : (httpdSanitiseUrl (strncpy target httpMaxUrl)).length < httpMaxUrl := by
    have h1 := length_sanitiseUrl (strncpy target httpMaxUrl)
    have h2 : (strncpy target httpMaxUrl).length ≤ 1023 := List.length_take_le _ _
    simp only [httpMaxUrl] at *
    omega
  rw [readTarget]
  cases hs : strchr questionMark (httpdSanitiseUrl (strncpy target httpMaxUrl)) with
  | none => exact ⟨hl, Nat.succ_pos 1023⟩
  | some r =>
    have hcut := congrArg List.length (strchr_eq_append _ _ r hs)
    have hquery : (strncpy r.2 httpMaxUrl).length ≤ 1023 := List.length_take_le _ _
    rw [List.length_append, List.length_cons] at hcut
    refine ⟨?_, Nat.lt_of_le_of_lt hquery (by decide)⟩
    simp only
    omega

theorem readTarget_values (target : Text) :
    ValuesIn (fun v => v.length < httpMaxUrl) (readTarget target).vars := by
  have hl : (httpdSanitiseUrl (strncpy target httpMaxUrl)).length < httpMaxUrl := by
    have h1 := length_sanitiseUrl (strncpy target httpMaxUrl)
    have h2 : (strncpy target httpMaxUrl).length ≤ 1023 := List.length_take_le _ _
    simp only [httpMaxUrl] at *
    omega
  rw [readTarget]
  cases hs : strchr questionMark (httpdSanitiseUrl (strncpy target httpMaxUrl)) with
  | none => exact fun n v hv => by simp at hv
  | some r =>
    intro n v hv
    have h1 := storeData_values r.2 n v hv
    have h2 := length_strchr _ _ r hs
    omega

end FasterConfig.HttpdRequest
