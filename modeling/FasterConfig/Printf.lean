import FasterConfig.HttpdResponse

/-!
# Formats

What `asprintf` prints of a format with conversions `%s`, `%d` and `%%`. A
format without a percent sign is printed as it is, and what stands in front of
the first one goes through.
-/

set_option autoImplicit false

namespace FasterConfig.Printf
open FasterConfig.Strings
open FasterConfig.HttpdResponse (decimal)

def percent : UInt8 := 0x25

inductive Arg where
  | str (s : Text)
  | int (v : ℤ)

/-- `none` where a conversion finds no argument of its kind. -/
def asprintf : Text → List Arg → Option Text
  | [], _ => some []
  | [c], _ => if c = percent then none else some [c]
  | c::k::s, args =>
    if c = percent then
      if k = percent then (asprintf s args).map (percent::·)
      else match args with
        | .str a::args => if k = 0x73 then (asprintf s args).map (a ++ ·) else none
        | .int v::args => if k = 0x64 then (asprintf s args).map (decimal v ++ ·) else none
        | [] => none
    else (asprintf (k::s) args).map (c::·)

theorem asprintf_cons (c : UInt8) (hc : c ≠ percent) (s : Text) (args : List Arg) :
    asprintf (c::s) args = (asprintf s args).map (c::·) := by
  cases s with
  | nil => exact if_neg hc
  | cons k s => exact if_neg hc

theorem asprintf_append (s t : Text) (hs : percent ∉ s) (args : List Arg) :
    asprintf (s ++ t) args = (asprintf t args).map (s ++ ·) := by
  induction s with
  | nil => exact Option.map_id'.symm
  | cons c s ih =>
    have hc : c ≠ percent := fun h => hs (h ▸ List.mem_cons_self)
    rw [List.cons_append, asprintf_cons c hc, ih fun h => hs (List.mem_cons_of_mem c h), Option.map_map]
    rfl

theorem asprintf_self (s : Text) (hs : percent ∉ s) (args : List Arg) : asprintf s args = some s := by
  have h := asprintf_append s [] hs args
  rwa [List.append_nil, asprintf, Option.map_some, List.append_nil] at h

theorem asprintf_str (a s : Text) (args : List Arg) :
    asprintf (percent::0x73::s) (.str a::args) = (asprintf s args).map (a ++ ·) := rfl

theorem asprintf_int (v : ℤ) (s : Text) (args : List Arg) :
    asprintf (percent::0x64::s) (.int v::args) = (asprintf s args).map (decimal v ++ ·) := rfl

end FasterConfig.Printf
