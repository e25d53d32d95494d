import FasterConfig.Cidr
import FasterConfig.Octets
import FasterConfig.Runs
import FasterConfig.Separators

/-!
# The configuration file

Lines are read into an array of 64 octets with a limit of 1024. The key of a
field is looked for anywhere in the line, and what the field then gets is the
second word. The loop goes round once more for the end of the file and finds
the last line still in the array.
-/

set_option autoImplicit false

namespace FasterConfig.ConfigFile
open FasterConfig.Octets FasterConfig.Strings FasterConfig.Runs FasterConfig.Separators
open FasterConfig.Cidr (isSpace isDigit value)

inductive IntField where
  | dnsPort
  | HttpPort
  deriving DecidableEq, Repr

inductive StrField where
  | dnsIP
  | ReUrl
  | gatewayIP
  | ErrorHtml
  | lockfile
  | staInterface
  | apInterface
  deriving DecidableEq, Repr

def IntField.key : IntField → Text
  | .dnsPort => ascii "DnsPort"
  | .HttpPort => ascii "HttpPort"

def StrField.key : StrField → Text
  | .dnsIP => ascii "DnsIP"
  | .ReUrl => ascii "ReUrl"
  | .gatewayIP => ascii "gatewayIP"
  | .ErrorHtml => ascii "ErrorHtml"
  | .lockfile => ascii "lockfile"
  | .staInterface => ascii "staInterface"
  | .apInterface => ascii "apInterface"

structure Fields where
  ints : IntField → Int32
  strs : StrField → Text

def fieldSize : ℕ := 64
def bufSize : ℕ := 64
def fgetsLimit : ℕ := 1024

/-! ## Conversions -/

/-- `%s` -/
def scanWord (s : Text) : Option (Text × Text) :=
  let t := s.dropWhile isSpace
  if t = [] then none
  else some (t.takeWhile fun c => !isSpace c, t.dropWhile fun c => !isSpace c)

/-- `%d`; a number that is no `int` is left undetermined. -/
def scanInt (s : Text) : Option Int32 :=
  let t := s.dropWhile isSpace
  let digits := (if t.head? = some 0x2d ∨ t.head? = some 0x2b then t.tail else t).takeWhile isDigit
  let n : ℤ := if t.head? = some 0x2d then -value digits else value digits
  if digits = [] ∨ n < -2147483648 ∨ 2147483647 < n then none else some (Int32.ofInt n)

/-- The number that `"%s %d\\n"` finds in a line. -/
def scanSecond (config_line : Text) : Option Int32 := (scanWord config_line).bind fun r => scanInt r.2

/-- `val` is what the variable holds before it is scanned. -/
def readIntFromConfigLine (config_line : Text) (val : Int32) : Int32 :=
  (scanSecond config_line).getD val

/-- `none`: the word and its NUL are longer than the array of the field. -/
def readStrFromConfigLine (config_line val : Text) : Option Text :=
  match (scanWord config_line).bind fun r => scanWord r.2 with
  | none => some val
  | some (w, _) => if w.length < fieldSize then some w else none

/-! ## A line -/

def blank : UInt8 := 0x20

def Matches (key buf : Text) : Prop := key ++ [blank] <:+: buf

instance (key buf : Text) : Decidable (Matches key buf) := inferInstanceAs (Decidable (_ <:+: _))

def Skipped (buf : Text) : Prop := buf.head? = some 0x23 ∨ buf.length < 4

instance (buf : Text) : Decidable (Skipped buf) := inferInstanceAs (Decidable (_ ∨ _))

def setInt (f : IntField) (buf : Text) (val : IntField → Int32) (s : Fields) : Option Fields :=
  if Matches f.key buf then
    some { s with ints := Function.update s.ints f (readIntFromConfigLine buf (val f)) }
  else some s

def setStr (f : StrField) (buf : Text) (s : Fields) : Option Fields :=
  if Matches f.key buf then
    (readStrFromConfigLine buf (s.strs f)).map fun w => { s with strs := Function.update s.strs f w }
  else some s

def lineStep (buf : Text) (val : IntField → Int32) (s : Fields) : Option Fields :=
  if Skipped buf then some s
  else do
    let s ← setInt .dnsPort buf val s
    let s ← setStr .dnsIP buf s
    let s ← setInt .HttpPort buf val s
    let s ← setStr .ReUrl buf s
    let s ← setStr .gatewayIP buf s
    let s ← setStr .ErrorHtml buf s
    let s ← setStr .lockfile buf s
    let s ← setStr .staInterface buf s
    setStr .apInterface buf s

/-! ## The loop -/

def newline : UInt8 := 0x0a

structure Got where
  line : Text
  rest : Text
  feof : Bool
  deriving DecidableEq, Repr

/-- At most `n` characters, up to a newline or the end of the file, which sets the flag. -/
def getLoop : ℕ → Text → Got
  | 0, fp => ⟨[], fp, false⟩
  | _+1, [] => ⟨[], [], true⟩
  | n+1, c::fp =>
    if c = newline then ⟨[c], fp, false⟩
    else
      let got := getLoop n fp
      ⟨c::got.line, got.rest, got.feof⟩

def fgets (n : ℕ) (fp : Text) : Got := getLoop (n-1) fp

/-- The array after the call: unchanged at the end of the file, `none` if the line and its NUL
do not fit. -/
def filled (buf line : Text) : Option Text :=
  if line = [] then some buf
  else if line.length < bufSize then some (memcpy buf 0 (line ++ [0]))
  else none

theorem getLoop_shorter (n : ℕ) (fp : Text) (h : (getLoop (n+1) fp).feof = false) :
    (getLoop (n+1) fp).rest.length < fp.length := by
  induction n generalizing fp with
  | zero =>
    cases fp with
    | nil => cases h
    | cons c fp =>
      rw [getLoop]
      split_ifs <;> simp [getLoop]
  | succ n ih =>
    cases fp with
    | nil => cases h
    | cons c fp =>
      rw [getLoop] at h ⊢
      split_ifs at h ⊢
      · simp
      · have hlt := ih fp h
        simp only [List.length_cons]
        omega

/-- `val` is what the stack holds for the two numbers in each pass. -/
def readConfigLoop (val : ℕ → IntField → Int32) (fp buf : Text) (s : Fields) : Option Fields :=
  match filled buf (fgets fgetsLimit fp).line with
  | none => none
  | some buf =>
    match lineStep (cString buf) (val 0) s with
    | none => none
    | some s =>
      if _h : (fgets fgetsLimit fp).feof = false then
        readConfigLoop (fun i => val (i+1)) (fgets fgetsLimit fp).rest buf s
      else some s
termination_by fp.length
decreasing_by exact getLoop_shorter 1022 fp _h

/-- `none` if a write goes past the array it is for. -/
def readConfigFile (val : ℕ → IntField → Int32) (file : Text) (buf : CArray bufSize) (s : Fields) :
    Option Fields :=
  readConfigLoop val file buf.octets s

end FasterConfig.ConfigFile
