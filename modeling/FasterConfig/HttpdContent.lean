import FasterConfig.NameTree
import FasterConfig.HttpdRequest
import Mathlib.Data.Int.Notation

/-!
# The content tree of the web server

Content is registered under a directory path, newest first in its directory.
The handlers are member functions; they stay abstract here. What a sequence
of registrations leaves at a path is the registrations for its segments,
latest first.
-/

set_option autoImplicit false

namespace FasterConfig.HttpdContent
open FasterConfig.NameTree FasterConfig.Strings FasterConfig.HttpdRequest

variable {H : Type*}

inductive ContentKind (H : Type*) where
  | file (path : Text)
  | cFunct (function : H)
  | emberFunct
  | static (data : Text)
  | wildcard (path : Text)
  | cWildcard (function : H)
  deriving DecidableEq, Repr

structure HttpContent (H : Type*) where
  name : Text
  kind : ContentKind H
  indexFlag : ℤ
  deriving DecidableEq, Repr

abbrev HttpDir (H : Type*) := Dir Text (List (HttpContent H))

def httpdCreate : HttpDir H := ⟨[], .null⟩

def segments (dir : Text) : List Text := strtok slash dir

def httpdFindContentDir (content : HttpDir H) (dir : Text) : Option (HttpDir H) :=
  content.find (segments (strncpy dir httpMaxUrl))

/-- With `createFlag` the directory is created where it is missing; the new entry goes to
the front of it. -/
def httpdAddCContent (content : HttpDir H) (dir name : Text) (indexFlag : ℤ) (function : H) :
    HttpDir H :=
  content.update [] (fun entries => ⟨name, .cFunct function, indexFlag⟩::entries)
    (segments (strncpy dir httpMaxUrl))

def ContentKind.isWildcard : ContentKind H → Bool
  | .wildcard _ => true
  | .cWildcard _ => true
  | _ => false

def httpdFindContentEntry (entryName : Text) : List (HttpContent H) → Option (HttpContent H)
  | [] => none
  | curEntry::next =>
    if curEntry.kind.isWildcard then some curEntry
    else if entryName = [] ∧ curEntry.indexFlag ≠ 0 then some curEntry
    else if curEntry.name = entryName then some curEntry
    else httpdFindContentEntry entryName next

/-! ## Registrations -/

structure Registration (H : Type*) where
  dir : Text
  name : Text
  indexFlag : ℤ
  function : H
  deriving DecidableEq, Repr

def Registration.content (r : Registration H) : HttpContent H :=
  ⟨r.name, .cFunct r.function, r.indexFlag⟩

def register (content : HttpDir H) (r : Registration H) : HttpDir H :=
  httpdAddCContent content r.dir r.name r.indexFlag r.function

def registerAll (regs : List (Registration H)) : HttpDir H := regs.foldl register httpdCreate

def Registration.Matches (E : Text) (r : Registration H) : Prop :=
  (E = [] ∧ r.indexFlag ≠ 0) ∨ r.name = E

instance (E : Text) (r : Registration H) : Decidable (r.Matches E) :=
  inferInstanceAs (Decidable (_ ∨ _))

def latest (regs : List (Registration H)) (segs : List Text) (E : Text) :
    Option (Registration H) :=
  regs.reverse.find? fun r => segments r.dir = segs ∧ r.Matches E

theorem entries_register (content : HttpDir H) (r : Registration H) (segs : List Text)
    (h : r.dir.length < httpMaxUrl) :
    (register content r).valueAt [] segs =
      if segs = segments r.dir then r.content::content.valueAt [] segs
      else content.valueAt [] segs := by
  rw [register, httpdAddCContent, strncpy_short _ _ h, Dir.valueAt_update]
  by_cases hs : segs = segments r.dir
  · rw [if_pos hs, if_pos hs, hs]
    rfl
  · rw [if_neg hs, if_neg hs]

theorem entries_fold (regs : List (Registration H)) (content : HttpDir H) (segs : List Text)
    (h : ∀ r ∈ regs, r.dir.length < httpMaxUrl) :
    (regs.foldl register content).valueAt [] segs =
      ((regs.reverse.filter fun r => segments r.dir = segs).map Registration.content) ++
        content.valueAt [] segs := by
  induction regs generalizing content with
  | nil => rfl
  | cons r regs ih =>
    rw [List.foldl_cons, ih _ fun p hp => h p (by simp [hp]),
      entries_register content r segs (h r (by simp)), List.reverse_cons, List.filter_append,
      List.map_append, List.append_assoc]
    by_cases hs : segs = segments r.dir
    · simp [hs]
    · simp [hs, Ne.symm hs]

/-- The entries at a path are its registrations, latest first. -/
theorem entries_registerAll (regs : List (Registration H)) (segs : List Text)
    (h : ∀ r ∈ regs, r.dir.length < httpMaxUrl) :
    (registerAll regs).valueAt [] segs =
      (regs.reverse.filter fun r => segments r.dir = segs).map Registration.content := by
  rw [registerAll, entries_fold regs _ segs h, httpdCreate, Dir.valueAt_empty, List.append_nil]

theorem findContentEntry_registered (rs : List (Registration H)) (E : Text) :
    httpdFindContentEntry E (rs.map Registration.content) =
      (rs.find? fun r => r.Matches E).map Registration.content := by
  induction rs with
  | nil => rfl
  | cons r rs ih =>
    have hw : r.content.kind.isWildcard = false := rfl
    rw [List.map_cons, httpdFindContentEntry, hw, ih, List.find?_cons]
    by_cases h1 : E = [] ∧ r.indexFlag ≠ 0
    · simp [Registration.content, Registration.Matches, h1]
    · by_cases h2 : r.name = E
      · simp [Registration.content, Registration.Matches, h2]
      · simp [Registration.content, Registration.Matches, h1, h2]

theorem find_registered (regs : List (Registration H)) (segs : List Text) (E : Text)
    (h : ∀ r ∈ regs, r.dir.length < httpMaxUrl) :
    httpdFindContentEntry E ((registerAll regs).valueAt [] segs) =
      (latest regs segs E).map Registration.content := by
  rw [entries_registerAll regs segs h, findContentEntry_registered, List.find?_filter, latest]
  simp only [Bool.decide_and, Bool.decide_eq_true]

end FasterConfig.HttpdContent
