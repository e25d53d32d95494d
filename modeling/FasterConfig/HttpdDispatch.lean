import FasterConfig.HttpdContent

/-!
# Dispatch of a request

The path is cut at its last slash, in the same array that the pointer to the
slash goes into. What is handed on to the directory search is that pointer
and not the array, so the search sees the empty string, or the slash itself,
and ends in the root directory whatever the path was.
-/

set_option autoImplicit false

namespace FasterConfig.HttpdDispatch
open FasterConfig.NameTree FasterConfig.Strings FasterConfig.HttpdRequest FasterConfig.HttpdContent

variable {H : Type*}

/-- What is run for a request; `send404` runs the error function of the server. -/
inductive Outcome (H : Type*) where
  | nothing
  | call (function : H)
  | sendStatic (data : Text)
  | sendFile (path : Text)
  | sendDirectoryEntry (path entryName : Text)
  | send404
  deriving DecidableEq, Repr

def serveContent (entryName : Text) : ContentKind H → Outcome H
  | .cFunct function => .call function
  | .cWildcard function => .call function
  | .static data => .sendStatic data
  | .file path => .sendFile path
  | .wildcard path => .sendDirectoryEntry path entryName
  | .emberFunct => .nothing

/-- The string at `cp` once the array has been cut: `*cp = 0`, or `*(cp+1) = 0` where
`cp` is the start of the array. -/
def cutAt (before : Text) : Text := if before = [] then [slash] else []

def httpdProcessRequest (content : HttpDir H) (path : Text) : Outcome H :=
  match strrchr slash (strncpy path httpMaxUrl) with
  | none => .nothing
  | some (before, behind) =>
    let entryName := strncpy behind httpMaxUrl
    match httpdFindContentDir content (cutAt before) with
    -- a debug line reads `dir->name` before this check; the root is always found
    | none => .send404
    | some dir => match httpdFindContentEntry entryName dir.value with
      | none => .send404
      | some entry => serveContent entryName entry.kind

theorem segments_cutAt (before : Text) : segments (strncpy (cutAt before) httpMaxUrl) = [] := by
  unfold cutAt
  split_ifs <;> decide

/-- `strtok` has one place for the whole process, so behind the first name a thread may be given
the names `later` that another one has come to. -/
def findSharing (later : List Text) (content : HttpDir H) (dir : Text) : Option (HttpDir H) :=
  match segments (strncpy dir httpMaxUrl) with
  | [] => some content
  | first::_ => content.find (first::later)

/-- No request has a first name, so the threads do not disturb each other there. -/
theorem find_sharing (later : List Text) (content : HttpDir H) (before : Text) :
    findSharing later content (cutAt before) = httpdFindContentDir content (cutAt before) := by
  rw [findSharing, httpdFindContentDir, segments_cutAt, Dir.find]

def handlerOf : Option (Registration H) → Outcome H
  | some r => .call r.function
  | none => .send404

theorem handlerOf_eq_iff (x y : Option (Registration H)) :
    handlerOf x = handlerOf y ↔ x.map Registration.function = y.map Registration.function := by
  cases x <;> cases y <;> simp [handlerOf]

theorem httpdProcessRequest_root (regs : List (Registration H)) (D E : Text)
    (hr : ∀ r ∈ regs, r.dir.length < httpMaxUrl) (hE : slash ∉ E)
    (hl : (D ++ slash::E).length < httpMaxUrl) :
    httpdProcessRequest (registerAll regs) (D ++ slash::E) = handlerOf (latest regs [] E) := by
  have hlen : E.length < httpMaxUrl := by
    simp only [List.length_append, List.length_cons] at hl
    omega
  have hfind := find_registered regs [] E hr
  rw [Dir.valueAt_nil] at hfind
  simp only [httpdProcessRequest, strncpy_short _ _ hl, strrchr_append slash D E hE,
    httpdFindContentDir, segments_cutAt, Dir.find, strncpy_short _ _ hlen, hfind]
  cases latest regs [] E <;> rfl

/-- A request for `E` in the directory `D` reaches the latest registration made for it
exactly when the root directory has the same handler under that name. -/
theorem dispatch_iff (regs : List (Registration H)) (D E : Text)
    (hr : ∀ r ∈ regs, r.dir.length < httpMaxUrl) (hE : slash ∉ E)
    (hl : (D ++ slash::E).length < httpMaxUrl) :
    httpdProcessRequest (registerAll regs) (D ++ slash::E) = handlerOf (latest regs (segments D) E) ↔
      (latest regs [] E).map Registration.function =
        (latest regs (segments D) E).map Registration.function := by
  rw [httpdProcessRequest_root regs D E hr hE hl, handlerOf_eq_iff]

/-! ## The registrations of `start` -/

inductive Callback where
  | httpCallbackFasterconfig
  deriving DecidableEq, Repr

def fasterconfig : Text := [0x66, 0x61, 0x73, 0x74, 0x65, 0x72, 0x63, 0x6f, 0x6e, 0x66, 0x69, 0x67]

def root : Text := [0x72, 0x6f, 0x6f, 0x74]

def startContent : List (Registration Callback) :=
  [⟨[slash], fasterconfig, 0, .httpCallbackFasterconfig⟩,
   ⟨slash::fasterconfig, root, 0, .httpCallbackFasterconfig⟩]

theorem dispatch_start :
    httpdProcessRequest (registerAll startContent) ([] ++ slash::fasterconfig) =
        handlerOf (latest startContent (segments []) fasterconfig) ↔
      (latest startContent [] fasterconfig).map Registration.function =
        (latest startContent (segments []) fasterconfig).map Registration.function :=
  dispatch_iff startContent [] fasterconfig (by decide) (by decide) (by decide)

/-- `/fasterconfig/root` is registered and not found; `/root/fasterconfig` is not
registered and served. -/
theorem subdirectory_not_reached :
    httpdProcessRequest (registerAll startContent) ((slash::fasterconfig) ++ slash::root) = .send404 ∧
      handlerOf (latest startContent (segments (slash::fasterconfig)) root) =
        .call .httpCallbackFasterconfig ∧
      httpdProcessRequest (registerAll startContent) ((slash::root) ++ slash::fasterconfig) =
        .call .httpCallbackFasterconfig ∧
      handlerOf (latest startContent (segments (slash::root)) fasterconfig) = .send404 := by
  decide +kernel

end FasterConfig.HttpdDispatch
