import FasterConfig.DnsResponse

/-!
# Fields of fixed width

Values of 16 and of 32 bits are written octet by octet, and read back in halves,
the high one first. The two low octets of a value of 32 bits are masked out and
shifted too far, so that they are written as zero.
-/

set_option autoImplicit false

namespace FasterConfig.DnsFields
open FasterConfig.Octets FasterConfig.Memory FasterConfig.DnsResponse

def get16bits (mem : Mem) (buffer : ℕ) : ℕ × ℕ :=
  let value := (mem buffer).toNat
  let value := value <<< 8
  let value := value+(mem (buffer+1)).toNat
  (value, buffer+2)

def put16bits (c : Cursor) (value : UInt32) : Cursor :=
  let mem := Function.update c.mem c.buffer ((value &&& 0xFF00) >>> 8).toUInt8
  let mem := Function.update mem (c.buffer+1) (value &&& 0xFF).toUInt8
  ⟨mem, c.buffer+2⟩

def put32bits (c : Cursor) (value : UInt64) : Cursor :=
  let mem := Function.update c.mem c.buffer ((value &&& 0xFF000000) >>> 24).toUInt8
  let mem := Function.update mem (c.buffer+1) ((value &&& 0xFF0000) >>> 16).toUInt8
  let mem := Function.update mem (c.buffer+2) ((value &&& 0xFF00) >>> 16).toUInt8
  let mem := Function.update mem (c.buffer+3) ((value &&& 0xFF) >>> 16).toUInt8
  ⟨mem, c.buffer+4⟩

/-- The server has the same two bodies under names of its own. -/
def get2byte (mem : Mem) (buffer : ℕ) : ℕ × ℕ := get16bits mem buffer

def put2byte (c : Cursor) (value : UInt32) : Cursor := put16bits c value

/-! ## Masks and shifts -/

theorem put16_ofNat (n : ℕ) : put16 (UInt16.ofNat n) = [UInt8.ofNat (n/256), UInt8.ofNat n] := by
  simp only [put16, List.cons.injEq, and_true]
  constructor
  · apply UInt8.toNat_inj.mp
    rw [UInt8.toNat_ofNat', UInt8.toNat_ofNat', UInt16.toNat_ofNat']
    omega
  · apply UInt8.toNat_inj.mp
    rw [UInt8.toNat_ofNat', UInt8.toNat_ofNat', UInt16.toNat_ofNat']
    omega

theorem masked_octet (n k : ℕ) : (n &&& 255 <<< k) >>> k = n/2^k%256 := by
  rw [Nat.shiftRight_and_distrib, Nat.shiftLeft_shiftRight, Nat.shiftRight_eq_div_pow]
  exact Nat.and_two_pow_sub_one_eq_mod _ 8

theorem shifted_out (n mask k : ℕ) (h : mask < 2^k) : (n &&& mask) >>> k = 0 := by
  rw [Nat.shiftRight_eq_div_pow]
  exact Nat.div_eq_of_lt (Nat.lt_of_le_of_lt Nat.and_le_right h)

theorem octet_of_mod (a : UInt8) (n : ℕ) (h : a.toNat = n%256) : a = UInt8.ofNat n := by
  apply UInt8.toNat_inj.mp
  rw [h, UInt8.toNat_ofNat']

theorem put16bits_eq (c : Cursor) (value : UInt32) :
    put16bits c value = c.put16bits (UInt16.ofNat value.toNat) := by
  have hhigh : ((value &&& 0xFF00) >>> 8).toUInt8 = UInt8.ofNat (value.toNat/256) := by
    apply octet_of_mod
    rw [UInt32.toNat_toUInt8, UInt32.toNat_shiftRight, UInt32.toNat_and]
    exact (congrArg (·%256) (masked_octet value.toNat 8)).trans (Nat.mod_mod _ _)
  have hlow : (value &&& 0xFF).toUInt8 = UInt8.ofNat value.toNat := by
    apply octet_of_mod
    rw [UInt32.toNat_toUInt8, UInt32.toNat_and]
    exact (congrArg (·%256) (Nat.and_two_pow_sub_one_eq_mod value.toNat 8)).trans (Nat.mod_mod _ _)
  simp only [put16bits, hhigh, hlow, Cursor.put16bits, put16_ofNat]
  rfl

/-- The low half of the value does not matter. -/
theorem put32bits_eq (c : Cursor) (value : UInt64) :
    put32bits c value = c.put (put16 (UInt16.ofNat (value.toNat/65536)) ++ put16 0) := by
  have hfirst : ((value &&& 0xFF000000) >>> 24).toUInt8 = UInt8.ofNat (value.toNat/65536/256) := by
    apply octet_of_mod
    rw [UInt64.toNat_toUInt8, UInt64.toNat_shiftRight, UInt64.toNat_and, Nat.div_div_eq_div_mul]
    exact (congrArg (·%256) (masked_octet value.toNat 24)).trans (Nat.mod_mod _ _)
  have hsecond : ((value &&& 0xFF0000) >>> 16).toUInt8 = UInt8.ofNat (value.toNat/65536) := by
    apply octet_of_mod
    rw [UInt64.toNat_toUInt8, UInt64.toNat_shiftRight, UInt64.toNat_and]
    exact (congrArg (·%256) (masked_octet value.toNat 16)).trans (Nat.mod_mod _ _)
  have hthird : ((value &&& 0xFF00) >>> 16).toUInt8 = 0 := by
    apply UInt8.toNat_inj.mp
    rw [UInt64.toNat_toUInt8, UInt64.toNat_shiftRight, UInt64.toNat_and]
    exact congrArg (·%256) (shifted_out value.toNat 0xFF00 16 (by decide))
  have hlast : ((value &&& 0xFF) >>> 16).toUInt8 = 0 := by
    apply UInt8.toNat_inj.mp
    rw [UInt64.toNat_toUInt8, UInt64.toNat_shiftRight, UInt64.toNat_and]
    exact congrArg (·%256) (shifted_out value.toNat 0xFF 16 (by decide))
  simp only [put32bits, hfirst, hsecond, hthird, hlast, put16_ofNat]
  rfl

theorem get16bits_eq (mem : Mem) (p : ℕ) : get16bits mem p = ((get16At mem p).toNat, p+2) := by
  rw [get16bits, get16At, toNat_get16, Nat.shiftLeft_eq]

/-! ## Fields one after the other -/

section
variable {ι ω α : Type}

def getAll (get : Mem → ω → ℕ → α × ℕ) (mem : Mem) : List ω → ℕ → List α × ℕ
  | [], p => ([], p)
  | w::ws, p =>
    let (v, p) := get mem w p
    let (vs, p) := getAll get mem ws p
    (v::vs, p)

/-- Fields that are written as octets of their own; `stored` is what these are read as. -/
structure Fields (ι ω α : Type) where
  put : Cursor → ι → Cursor
  get : Mem → ω → ℕ → α × ℕ
  width : ι → ω
  size : ω → ℕ
  octets : ι → List UInt8
  stored : ι → α
  length_octets : ∀ i, (octets i).length = size (width i)
  put_eq : ∀ c i, put c i = c.put (octets i)
  get_eq : ∀ mem p i, Holds mem p (octets i) → get mem (width i) p = (stored i, p+size (width i))

/-- The cursor ends behind the fields, and reading from the start gives their values. -/
structure Fields.Returned (k : Fields ι ω α) (value : ι → α) (c : Cursor) (is : List ι) : Prop where
  cursor : (is.foldl k.put c).buffer = c.buffer+(is.map fun i => k.size (k.width i)).sum
  values : getAll k.get (is.foldl k.put c).mem (is.map k.width) c.buffer =
    (is.map value, (is.foldl k.put c).buffer)

namespace Fields
variable (k : Fields ι ω α)

theorem foldl_put (c : Cursor) (is : List ι) : is.foldl k.put c = c.put (is.flatMap k.octets) := by
  induction is generalizing c with
  | nil => rfl
  | cons i is ih => rw [List.foldl_cons, ih, k.put_eq, Cursor.put_put, List.flatMap_cons]

theorem length_fields (is : List ι) :
    (is.flatMap k.octets).length = (is.map fun i => k.size (k.width i)).sum := by
  induction is with
  | nil => rfl
  | cons i is ih => rw [List.flatMap_cons, List.length_append, ih, k.length_octets, List.map_cons,
      List.sum_cons]

theorem getAll_eq (mem : Mem) (p : ℕ) (is : List ι) (h : Holds mem p (is.flatMap k.octets)) :
    getAll k.get mem (is.map k.width) p = (is.map k.stored, p+(is.flatMap k.octets).length) := by
  induction is generalizing p with
  | nil => rfl
  | cons i is ih =>
    rw [List.flatMap_cons, holds_append] at h
    have hrest := ih (p+k.size (k.width i)) (k.length_octets i ▸ h.2)
    simp only [List.map_cons, getAll, k.get_eq mem p i h.1, hrest, List.flatMap_cons,
      List.length_append, k.length_octets, Nat.add_assoc]

theorem returned_iff (value : ι → α) (c : Cursor) (is : List ι) :
    k.Returned value c is ↔ ∀ i ∈ is, k.stored i = value i := by
  have hholds : Holds (is.foldl k.put c).mem c.buffer (is.flatMap k.octets) := by
    rw [foldl_put]
    exact holds_store _ _ _
  have hcursor : (is.foldl k.put c).buffer = c.buffer+(is.flatMap k.octets).length := by
    rw [foldl_put]
    rfl
  have hread := k.getAll_eq _ _ is hholds
  rw [← hcursor] at hread
  rw [length_fields] at hcursor
  rw [← List.map_inj_left]
  constructor
  · intro h
    exact congrArg Prod.fst (hread.symm.trans h.values)
  · intro h
    exact ⟨hcursor, by rw [hread, h]⟩

end Fields

end

/-! ## The fields of a message -/

inductive Width where
  | bits16
  | bits32
  deriving DecidableEq, Repr

def Width.size : Width → ℕ
  | bits16 => 2
  | bits32 => 4

inductive Field where
  | bits16 (value : UInt32)
  | bits32 (value : UInt64)
  deriving DecidableEq, Repr

namespace Field

def width : Field → Width
  | bits16 _ => .bits16
  | bits32 _ => .bits32

def value : Field → ℕ
  | bits16 value => value.toNat%2^16
  | bits32 value => value.toNat%2^32

def octets : Field → List UInt8
  | bits16 value => put16 (UInt16.ofNat value.toNat)
  | bits32 value => put16 (UInt16.ofNat (value.toNat/65536)) ++ put16 0

def stored : Field → ℕ
  | bits16 value => value.toNat%2^16
  | bits32 value => value.toNat/65536%2^16*2^16

end Field

def putField (c : Cursor) : Field → Cursor
  | .bits16 value => put16bits c value
  | .bits32 value => put32bits c value

/-- A value of 32 bits is read in two halves. -/
def getField (mem : Mem) : Width → ℕ → ℕ × ℕ
  | .bits16, p => get16bits mem p
  | .bits32, p =>
    let (high, p) := get16bits mem p
    let (low, p) := get16bits mem p
    (high*2^16+low, p)

theorem get16bits_holds (mem : Mem) (p n : ℕ) (h : Holds mem p (put16 (UInt16.ofNat n))) :
    get16bits mem p = (n%2^16, p+2) := by
  rw [get16bits_eq, get16At_holds mem p _ h, UInt16.toNat_ofNat']

def messageFields : Fields Field Width ℕ where
  put := putField
  get := getField
  width := Field.width
  size := Width.size
  octets := Field.octets
  stored := Field.stored
  length_octets f := by cases f <;> rfl
  put_eq c f := by
    cases f with
    | bits16 value => exact put16bits_eq c value
    | bits32 value => exact put32bits_eq c value
  get_eq mem p f h := by
    cases f with
    | bits16 value => exact get16bits_holds mem p _ h
    | bits32 value =>
      obtain ⟨hhigh, hlow⟩ := (holds_append _ _ _ _).mp h
      have hzero := get16bits_holds mem (p+2) 0 hlow
      simp only [getField, Field.width, get16bits_holds mem p _ hhigh, hzero, Nat.zero_mod,
        Nat.add_zero, Nat.add_assoc, Field.stored, Width.size]

def serverFields : Fields UInt32 Unit ℕ where
  put := put2byte
  get mem _ := get2byte mem
  width _ := ()
  size _ := 2
  octets value := put16 (UInt16.ofNat value.toNat)
  stored value := value.toNat%2^16
  length_octets _ := rfl
  put_eq := put16bits_eq
  get_eq mem p _ h := get16bits_holds mem p _ h

theorem message_returned_iff (c : Cursor) (fs : List Field) :
    messageFields.Returned Field.value c fs ↔ ∀ value, .bits32 value ∈ fs → value.toNat%2^16 = 0 := by
  rw [Fields.returned_iff]
  constructor
  · intro h value hv
    have hstored := h _ hv
    simp only [messageFields, Field.stored, Field.value] at hstored
    omega
  · intro h f hf
    cases f with
    | bits16 value => rfl
    | bits32 value =>
      have hlow := h value hf
      simp only [messageFields, Field.stored, Field.value]
      omega

/-- A field of 32 bits comes back with zeros in its low half. -/
theorem fields_returned_iff (c : Cursor) (fs : List Field) (values : List UInt32) :
    (messageFields.Returned Field.value c fs ↔
      ∀ value, .bits32 value ∈ fs → value.toNat%2^16 = 0) ∧
      serverFields.Returned (fun value => value.toNat%2^16) c values := by
  refine ⟨message_returned_iff c fs, ?_⟩
  rw [Fields.returned_iff]
  exact fun _ _ => rfl

theorem hour_lost : ¬ messageFields.Returned Field.value ⟨fun _ => 0, 0⟩ [.bits32 3600] := by
  rw [message_returned_iff]
  intro h
  exact absurd (h 3600 (by decide)) (by decide)

end FasterConfig.DnsFields
