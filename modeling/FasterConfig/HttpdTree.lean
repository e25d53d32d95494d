import FasterConfig.NameWalk
import FasterConfig.HttpdContent

/-!
# The content tree as a map

Looking a directory up and creating it are one loop over the tree. With the
loop written out, adding content is still an update along the segments of the
directory, so names of siblings stay distinct, a directory is there exactly
when something was registered at or below it, and entries depend on what was
registered under the very same segments only.
-/

set_option autoImplicit false

namespace FasterConfig.HttpdTree
open FasterConfig.NameTree FasterConfig.Strings
open FasterConfig.HttpdRequest (httpMaxUrl)
open FasterConfig.HttpdContent (HttpDir HttpContent Registration httpdCreate segments register
  registerAll latest httpdFindContentEntry)

variable {H : Type*}

/-- The tree after the call, and the place of the directory in it. -/
def httpdFindContentDir (createFlag : Bool) (content : HttpDir H) (dir : Text) :
    HttpDir H × Option (List ℕ) :=
  content.walk [] createFlag (segments (strncpy dir httpMaxUrl))

def httpdAddCContent (content : HttpDir H) (dir name : Text) (indexFlag : ℤ) (function : H) :
    HttpDir H :=
  let r := httpdFindContentDir true content dir
  r.2.elim r.1 fun dirPtr =>
    r.1.modify (fun entries => ⟨name, .cFunct function, indexFlag⟩::entries) dirPtr

def add (content : HttpDir H) (r : Registration H) : HttpDir H :=
  httpdAddCContent content r.dir r.name r.indexFlag r.function

def addAll (regs : List (Registration H)) : HttpDir H := regs.foldl add httpdCreate

/-- What `_httpd_findContentEntry` finds in a directory. -/
def entryAt (content : HttpDir H) (place : List ℕ) (entryName : Text) : Option (HttpContent H) :=
  (content.nodeAt place).bind fun dir => httpdFindContentEntry entryName dir.value

def lookup (content : HttpDir H) (path entryName : Text) : Option (HttpContent H) :=
  (httpdFindContentDir false content path).2.bind fun place => entryAt content place entryName

theorem add_eq (content : HttpDir H) (r : Registration H) : add content r = register content r := by
  obtain ⟨place, hp, hm⟩ := Dir.walk_modify []
    (fun entries => ⟨r.name, .cFunct r.function, r.indexFlag⟩::entries)
    (segments (strncpy r.dir httpMaxUrl)) content
  rw [add, httpdAddCContent, httpdFindContentDir, hp, Option.elim_some, hm]
  rfl

theorem addAll_eq (regs : List (Registration H)) : addAll regs = registerAll regs := by
  have hadd : (add : HttpDir H → Registration H → HttpDir H) = register := by
    funext content r
    exact add_eq content r
  rw [addAll, registerAll, hadd]

/-! ## Directories -/

theorem distinct_add (content : HttpDir H) (r : Registration H) (h : content.Distinct) :
    (add content r).Distinct := by
  rw [add_eq]
  exact Dir.distinct_update [] _ _ content h

theorem distinct_addAll (regs : List (Registration H)) : (addAll regs).Distinct := by
  rw [addAll]
  induction regs using List.reverseRecOn with
  | nil => exact trivial
  | append_singleton regs r ih =>
    rw [List.foldl_concat]
    exact distinct_add _ r ih

theorem find_from (regs : List (Registration H)) (content : HttpDir H) (segs : List Text)
    (h : ∀ r ∈ regs, r.dir.length < httpMaxUrl) :
    ((regs.foldl register content).find segs).isSome ↔
      (content.find segs).isSome ∨ ∃ r ∈ regs, segs <+: segments r.dir := by
  induction regs generalizing content with
  | nil => simp
  | cons r regs ih =>
    rw [List.foldl_cons, ih _ fun p hp => h p (List.mem_cons_of_mem r hp), register,
      HttpdContent.httpdAddCContent, strncpy_short _ _ (h r List.mem_cons_self),
      Dir.find_update_isSome, or_assoc, List.exists_mem_cons_iff]

/-- A directory is there when something was registered at or below it; the root always is. -/
theorem find_addAll (regs : List (Registration H)) (segs : List Text)
    (h : ∀ r ∈ regs, r.dir.length < httpMaxUrl) :
    (addAll regs).find segs = none ↔ segs ≠ [] ∧ ¬ ∃ r ∈ regs, segs <+: segments r.dir := by
  rw [← Option.not_isSome_iff_eq_none, addAll_eq, registerAll, find_from regs _ segs h, not_or,
    httpdCreate, Dir.find_empty]

section
variable (content : HttpDir H) (path : Text) (hp : path.length < httpMaxUrl)
include hp

theorem findContentDir_walk :
    httpdFindContentDir false content path = content.walk [] false (segments path) := by
  rw [httpdFindContentDir, strncpy_short _ _ hp]

theorem findContentDir_none :
    (httpdFindContentDir false content path).2 = none ↔ content.find (segments path) = none := by
  rw [findContentDir_walk content path hp, Dir.walk_none_iff]

theorem entryAt_place (place : List ℕ) (entryName : Text)
    (h : (httpdFindContentDir false content path).2 = some place) :
    entryAt content place entryName =
      httpdFindContentEntry entryName (content.valueAt [] (segments path)) := by
  rw [findContentDir_walk content path hp] at h
  have hsome : content.find (segments path) ≠ none := by
    rw [Ne, ← Dir.walk_none_iff [], h]
    exact Option.some_ne_none place
  rw [entryAt, (Dir.walk_place [] _ content place h).1, Dir.valueAt]
  cases hf : content.find (segments path) with
  | none => exact absurd hf hsome
  | some d => rfl

theorem lookup_valueAt (entryName : Text) :
    lookup content path entryName =
      httpdFindContentEntry entryName (content.valueAt [] (segments path)) := by
  rw [lookup]
  cases h : (httpdFindContentDir false content path).2 with
  | none =>
    rw [findContentDir_none content path hp] at h
    rw [Dir.valueAt, h]
    rfl
  | some place => exact entryAt_place content path hp place entryName h

end

theorem lookup_add (content : HttpDir H) (r : Registration H) (path entryName : Text)
    (hr : r.dir.length < httpMaxUrl) (hp : path.length < httpMaxUrl)
    (hs : segments path ≠ segments r.dir) :
    lookup (add content r) path entryName = lookup content path entryName := by
  rw [lookup_valueAt _ path hp, lookup_valueAt _ path hp, add_eq,
    HttpdContent.entries_register content r _ hr, if_neg hs]

/-- The tree is a map from segments to entries. -/
theorem tree_is_map (regs : List (Registration H)) (h : ∀ r ∈ regs, r.dir.length < httpMaxUrl) :
    (addAll regs).Distinct ∧ ∀ path, path.length < httpMaxUrl →
      (httpdFindContentDir false (addAll regs) path).1 = addAll regs ∧
      ((httpdFindContentDir false (addAll regs) path).2 = none ↔
        segments path ≠ [] ∧ ¬ ∃ r ∈ regs, segments path <+: segments r.dir) ∧
      (∀ other, other.length < httpMaxUrl → segments other = segments path →
        httpdFindContentDir false (addAll regs) other =
          httpdFindContentDir false (addAll regs) path) ∧
      (∀ place, (httpdFindContentDir false (addAll regs) path).2 = some place →
        (addAll regs).route place = segments path ∧ ∀ entryName,
          entryAt (addAll regs) place entryName =
            (latest regs (segments path) entryName).map Registration.content) ∧
      ∀ r entryName, r.dir.length < httpMaxUrl → segments path ≠ segments r.dir →
        lookup (addAll (regs ++ [r])) path entryName = lookup (addAll regs) path entryName := by
  refine ⟨distinct_addAll regs, ?_⟩
  intro path hp
  refine ⟨Dir.walk_false [] _ _, ?_, ?_, ?_, ?_⟩
  · rw [findContentDir_none _ path hp, find_addAll regs _ h]
  · intro other ho hs
    rw [findContentDir_walk _ other ho, findContentDir_walk _ path hp, hs]
  · intro place hplace
    constructor
    · rw [findContentDir_walk _ path hp] at hplace
      exact (Dir.walk_place [] _ _ place hplace).2
    · intro entryName
      rw [entryAt_place _ path hp place entryName hplace, addAll_eq,
        HttpdContent.find_registered regs _ entryName h]
  · intro r entryName hr hs
    rw [addAll, List.foldl_concat]
    exact lookup_add (addAll regs) r path entryName hr hp hs

def nested : List (Registration Unit) :=
  [⟨[0x2f, 0x61, 0x2f, 0x62], ascii "index", 1, ()⟩, ⟨[0x61], ascii "index", 1, ()⟩]

theorem nested_is_map : (addAll nested).Distinct ∧
    (httpdFindContentDir false (addAll nested) [0x2f, 0x62]).2 = none := by
  have h := tree_is_map nested (by decide)
  constructor
  · exact h.1
  · exact (h.2 [0x2f, 0x62] (by decide)).2.1.mpr (by decide)

end FasterConfig.HttpdTree
