import Mathlib.Logic.Function.Basic
import Mathlib.Data.Nat.Notation

/-!
# Descriptors of a process

Connections and files share one table of descriptors. A descriptor that is
closed may be given out again, so a late write or close would reach whatever
has it by then. As long as every use is made through the one owner of an open
descriptor, the output of a connection is what its owner has written, less
what short writes have lost, and nothing is closed twice.
-/

set_option autoImplicit false

namespace FasterConfig.Descriptors

inductive Handle where
  | connection (c : ℕ)
  | file
  deriving DecidableEq, Repr

variable {β ι : Type*}

/-- Connections are numbered as they come in; `lost` counts what writes have left out, and `stray`
the writes and closes that have met no connection. -/
structure Process (β : Type*) where
  table : ℕ → Option Handle
  opened : ℕ
  output : ℕ → List β
  lost : ℕ → ℕ
  closes : ℕ → ℕ
  stray : ℕ

namespace Process

def openConnection (p : Process β) (fd : ℕ) : Process β :=
  { p with table := Function.update p.table fd (some (.connection p.opened)), opened := p.opened+1 }

def openFile (p : Process β) (fd : ℕ) : Process β :=
  { p with table := Function.update p.table fd (some .file) }

def closeFile (p : Process β) (fd : ℕ) : Process β :=
  { p with table := Function.update p.table fd none }

/-- A write of `buf`, of which no more than `taken` goes out. -/
def write (p : Process β) (fd : ℕ) (buf taken : List β) : Process β :=
  match p.table fd with
  | some (.connection c) =>
    { p with
      output := Function.update p.output c (p.output c ++ taken)
      lost := Function.update p.lost c (p.lost c+(buf.length-taken.length)) }
  | _ => { p with stray := p.stray+1 }

def close (p : Process β) (fd : ℕ) : Process β :=
  match p.table fd with
  | some (.connection c) =>
    { p with
      table := Function.update p.table fd none
      closes := Function.update p.closes c (p.closes c+1) }
  | _ => { p with table := Function.update p.table fd none, stray := p.stray+1 }

end Process

structure Socket where
  fd : ℕ
  connection : ℕ
  deriving DecidableEq, Repr

/-- The open connections are those that have an owner, and they have one each. -/
structure Owned (p : Process β) (own : ι → Option Socket) : Prop where
  held : ∀ i k, own i = some k → p.table k.fd = some (.connection k.connection)
  holder : ∀ fd c, p.table fd = some (.connection c) → ∃ i, own i = some ⟨fd, c⟩
  one : ∀ i j k l, own i = some k → own j = some l → k.connection = l.connection → i = j
  known : ∀ i k, own i = some k → k.connection < p.opened ∧ p.closes k.connection = 0
  closed : ∀ c, c < p.opened → (∀ i k, own i = some k → k.connection ≠ c) → p.closes c = 1
  ahead : ∀ c, p.opened ≤ c → p.closes c = 0 ∧ p.output c = [] ∧ p.lost c = 0
  stray : p.stray = 0

def idle (files : ℕ → Bool) : Process β where
  table fd := if files fd then some .file else none
  opened := 0
  output _ := []
  lost _ := 0
  closes _ := 0
  stray := 0

theorem owned_idle (files : ℕ → Bool) :
    Owned (idle files : Process β) (fun _ : ι => none) where
  held _ _ h := by cases h
  holder fd c h := by
    simp only [idle] at h
    cases hf : files fd <;> simp [hf] at h
  one _ _ _ _ h := by cases h
  known _ _ h := by cases h
  closed _ h := absurd h (Nat.not_lt_zero _)
  ahead _ _ := ⟨rfl, rfl, rfl⟩
  stray := rfl

section
variable {p : Process β} {own : ι → Option Socket}

theorem Owned.closes_le (h : Owned p own) (c : ℕ) : p.closes c ≤ 1 := by
  by_cases hc : c < p.opened
  · by_cases hn : ∀ i k, own i = some k → k.connection ≠ c
    · exact Nat.le_of_eq (h.closed c hc hn)
    · simp only [not_forall, not_not] at hn
      obtain ⟨i, k, hk, rfl⟩ := hn
      rw [(h.known i k hk).2]
      exact Nat.zero_le 1
  · rw [(h.ahead c (Nat.le_of_not_lt hc)).1]
    exact Nat.zero_le 1

theorem Owned.holder_of_open (h : Owned p own) (c : ℕ) (hc : c < p.opened) (h0 : p.closes c = 0) :
    ∃ i k, own i = some k ∧ k.connection = c := by
  by_contra hn
  have h1 := h.closed c hc fun i k hk he => hn ⟨i, k, hk, he⟩
  omega

theorem Owned.ne_free (h : Owned p own) (fd : ℕ) (hfree : p.table fd = none) (i : ι) (k : Socket)
    (hk : own i = some k) : k.fd ≠ fd := by
  rintro rfl
  rw [h.held i k hk] at hfree
  cases hfree

theorem Owned.one_fd (h : Owned p own) (i j : ι) (k l : Socket) (hk : own i = some k)
    (hl : own j = some l) (hfd : k.fd = l.fd) : i = j := by
  have hkt := h.held i k hk
  rw [hfd, h.held j l hl] at hkt
  exact h.one i j k l hk hl (Handle.connection.inj (Option.some.inj hkt)).symm

theorem Owned.openFile (h : Owned p own) (fd : ℕ) (hfree : p.table fd = none) :
    Owned (p.openFile fd) own where
  held i k hk := (Function.update_of_ne (h.ne_free fd hfree i k hk) _ _).trans (h.held i k hk)
  holder f c hf := by
    by_cases he : f = fd
    · simp only [Process.openFile, he, Function.update_self, Option.some.injEq, reduceCtorEq] at hf
    · simp only [Process.openFile, Function.update_of_ne he] at hf
      exact h.holder f c hf
  one := h.one
  known := h.known
  closed := h.closed
  ahead := h.ahead
  stray := h.stray

theorem Owned.closeFile (h : Owned p own) (fd : ℕ) (hfile : p.table fd = some .file) :
    Owned (p.closeFile fd) own where
  held i k hk := by
    have hne : k.fd ≠ fd := by
      rintro rfl
      rw [h.held i k hk] at hfile
      cases hfile
    exact (Function.update_of_ne hne _ _).trans (h.held i k hk)
  holder f c hf := by
    by_cases he : f = fd
    · simp only [Process.closeFile, he, Function.update_self, reduceCtorEq] at hf
    · simp only [Process.closeFile, Function.update_of_ne he] at hf
      exact h.holder f c hf
  one := h.one
  known := h.known
  closed := h.closed
  ahead := h.ahead
  stray := h.stray

theorem Owned.write (h : Owned p own) (i : ι) (k : Socket) (hk : own i = some k)
    (buf taken : List β) :
    Owned (p.write k.fd buf taken) own ∧ (p.write k.fd buf taken).opened = p.opened ∧
      (p.write k.fd buf taken).closes = p.closes ∧
      (p.write k.fd buf taken).output =
        Function.update p.output k.connection (p.output k.connection ++ taken) ∧
      (p.write k.fd buf taken).lost =
        Function.update p.lost k.connection (p.lost k.connection+(buf.length-taken.length)) := by
  have hw : p.write k.fd buf taken =
      { p with
        output := Function.update p.output k.connection (p.output k.connection ++ taken)
        lost := Function.update p.lost k.connection
          (p.lost k.connection+(buf.length-taken.length)) } := by
    rw [Process.write, h.held i k hk]
  rw [hw]
  refine ⟨⟨h.held, h.holder, h.one, h.known, h.closed, fun c hc => ?_, h.stray⟩, rfl, rfl, rfl, rfl⟩
  have hne : c ≠ k.connection := Nat.ne_of_gt (Nat.lt_of_lt_of_le (h.known i k hk).1 hc)
  obtain ⟨hcloses, hout, hlost⟩ := h.ahead c hc
  exact ⟨hcloses, (Function.update_of_ne hne _ _).trans hout,
    (Function.update_of_ne hne _ _).trans hlost⟩

variable [DecidableEq ι]

theorem Owned.openConnection (h : Owned p own) (fd : ℕ) (hfree : p.table fd = none) (i : ι)
    (hi : own i = none) :
    Owned (p.openConnection fd) (Function.update own i (some ⟨fd, p.opened⟩)) where
  held j k hk := by
    by_cases hj : j = i
    · subst hj
      rw [Function.update_self] at hk
      cases hk
      exact Function.update_self ..
    · rw [Function.update_of_ne hj] at hk
      exact (Function.update_of_ne (h.ne_free fd hfree j k hk) _ _).trans (h.held j k hk)
  holder f c hf := by
    by_cases he : f = fd
    · subst he
      simp only [Process.openConnection, Function.update_self] at hf
      cases hf
      exact ⟨i, Function.update_self ..⟩
    · simp only [Process.openConnection, Function.update_of_ne he] at hf
      obtain ⟨j, hj⟩ := h.holder f c hf
      have hne : j ≠ i := by
        rintro rfl
        rw [hi] at hj
        cases hj
      exact ⟨j, (Function.update_of_ne hne _ _).trans hj⟩
  one j j' k l hk hl he := by
    by_cases hj : j = i <;> by_cases hj' : j' = i
    · rw [hj, hj']
    · subst hj
      rw [Function.update_self] at hk
      rw [Function.update_of_ne hj'] at hl
      cases hk
      exact absurd he (Nat.ne_of_gt (h.known j' l hl).1)
    · subst hj'
      rw [Function.update_of_ne hj] at hk
      rw [Function.update_self] at hl
      cases hl
      exact absurd he (Nat.ne_of_lt (h.known j k hk).1)
    · rw [Function.update_of_ne hj] at hk
      rw [Function.update_of_ne hj'] at hl
      exact h.one j j' k l hk hl he
  known j k hk := by
    by_cases hj : j = i
    · subst hj
      rw [Function.update_self] at hk
      cases hk
      exact ⟨Nat.lt_succ_self _, (h.ahead _ (Nat.le_refl _)).1⟩
    · rw [Function.update_of_ne hj] at hk
      exact ⟨Nat.lt_succ_of_lt (h.known j k hk).1, (h.known j k hk).2⟩
  closed c hc hn := by
    have hne : p.opened ≠ c := hn i ⟨fd, p.opened⟩ (Function.update_self ..)
    have hlt : c < p.opened := by
      simp only [Process.openConnection] at hc
      omega
    refine h.closed c hlt fun j k hk => hn j k ?_
    have hj : j ≠ i := by
      rintro rfl
      rw [hi] at hk
      cases hk
    rw [Function.update_of_ne hj, hk]
  ahead c hc := h.ahead c (Nat.le_of_succ_le hc)
  stray := h.stray

theorem Owned.close (h : Owned p own) (i : ι) (k : Socket) (hk : own i = some k) :
    Owned (p.close k.fd) (Function.update own i none) ∧ (p.close k.fd).opened = p.opened ∧
      (p.close k.fd).closes = Function.update p.closes k.connection 1 ∧
      (p.close k.fd).output = p.output ∧ (p.close k.fd).lost = p.lost := by
  have hcl : p.close k.fd =
      { p with
        table := Function.update p.table k.fd none
        closes := Function.update p.closes k.connection 1 } := by
    rw [Process.close, h.held i k hk]
    simp only [(h.known i k hk).2]
  have hrest : ∀ j l, Function.update own i none j = some l → j ≠ i ∧ own j = some l := by
    intro j l hl
    by_cases hj : j = i
    · rw [hj, Function.update_self] at hl
      cases hl
    · rw [Function.update_of_ne hj] at hl
      exact ⟨hj, hl⟩
  have hother : ∀ j l, j ≠ i → own j = some l → l.connection ≠ k.connection :=
    fun j l hj hl he => hj (h.one j i l k hl hk he)
  rw [hcl]
  refine ⟨⟨fun j l hl => ?_, fun f c hf => ?_, fun j j' l l' hl hl' => ?_, fun j l hl => ?_,
    fun c hc hn => ?_, fun c hc => ?_, h.stray⟩, rfl, rfl, rfl, rfl⟩
  · obtain ⟨hj, hl⟩ := hrest j l hl
    have hfd : l.fd ≠ k.fd := fun he => hj (h.one_fd j i l k hl hk he)
    exact (Function.update_of_ne hfd _ _).trans (h.held j l hl)
  · by_cases he : f = k.fd
    · simp only [he, Function.update_self, reduceCtorEq] at hf
    · simp only [Function.update_of_ne he] at hf
      obtain ⟨j, hj⟩ := h.holder f c hf
      have hne : j ≠ i := by
        rintro rfl
        rw [hk] at hj
        exact he (congrArg Socket.fd (Option.some.inj hj)).symm
      exact ⟨j, (Function.update_of_ne hne _ _).trans hj⟩
  · exact h.one j j' l l' (hrest j l hl).2 (hrest j' l' hl').2
  · obtain ⟨hj, hl⟩ := hrest j l hl
    exact ⟨(h.known j l hl).1,
      (Function.update_of_ne (hother j l hj hl) _ _).trans (h.known j l hl).2⟩
  · by_cases he : c = k.connection
    · simp only [he, Function.update_self]
    · simp only [Function.update_of_ne he]
      refine h.closed c hc fun j l hl => ?_
      by_cases hj : j = i
      · rw [hj, hk] at hl
        cases hl
        exact fun hkc => he hkc.symm
      · exact hn j l ((Function.update_of_ne hj _ _).trans hl)
  · have hne : c ≠ k.connection := Nat.ne_of_gt (Nat.lt_of_lt_of_le (h.known i k hk).1 hc)
    exact ⟨(Function.update_of_ne hne _ _).trans (h.ahead c hc).1, (h.ahead c hc).2⟩

theorem Owned.turnAway (h : Owned p own) (fd : ℕ) (hfree : p.table fd = none) (i : ι)
    (hi : own i = none) (buf taken : List β) :
    Owned (((p.openConnection fd).write fd buf taken).close fd) own ∧
      (((p.openConnection fd).write fd buf taken).close fd).opened = p.opened+1 ∧
      (((p.openConnection fd).write fd buf taken).close fd).closes =
        Function.update p.closes p.opened 1 ∧
      (((p.openConnection fd).write fd buf taken).close fd).output =
        Function.update p.output p.opened taken ∧
      (((p.openConnection fd).write fd buf taken).close fd).lost =
        Function.update p.lost p.opened (buf.length-taken.length) := by
  have hnew : Function.update own i (some ⟨fd, p.opened⟩) i = some ⟨fd, p.opened⟩ :=
    Function.update_self ..
  obtain ⟨hw, hwo, hwc, hwout, hwlost⟩ :=
    (h.openConnection fd hfree i hi).write i ⟨fd, p.opened⟩ hnew buf taken
  obtain ⟨hc, hco, hcc, hcout, hclost⟩ := hw.close i ⟨fd, p.opened⟩ hnew
  have hown : Function.update (Function.update own i (some ⟨fd, p.opened⟩)) i none = own := by
    rw [Function.update_idem, ← hi]
    exact Function.update_eq_self i own
  obtain ⟨-, hempty, hnone⟩ := h.ahead p.opened (Nat.le_refl _)
  rw [hown] at hc
  refine ⟨hc, hco.trans hwo, hcc.trans (by rw [hwc]; rfl), hcout.trans (hwout.trans ?_),
    hclost.trans (hwlost.trans ?_)⟩
  · simp only [Process.openConnection, hempty, List.nil_append]
  · simp only [Process.openConnection, hnone, Nat.zero_add]

end

/-! ## What comes of a text -/

/-- A part of the text, and short of it by what has been lost. -/
structure Arrived (text out : List β) (lost : ℕ) : Prop where
  part : List.Sublist out text
  short : out.length+lost = text.length

theorem arrived_all (text : List β) : Arrived text text 0 := ⟨List.Sublist.refl text, rfl⟩

/-- Where no write was short the text is there in full. -/
theorem Arrived.whole {text out : List β} (h : Arrived text out 0) : out = text :=
  h.part.eq_of_length h.short

theorem Arrived.write {text out left buf rest taken : List β} {lost : ℕ}
    (h : Arrived text (out ++ left) lost) (hl : left = buf ++ rest) (ht : List.Sublist taken buf) :
    Arrived text (out ++ taken ++ rest) (lost+(buf.length-taken.length)) where
  part := by
    have hpart := (((List.Sublist.refl out).append ht).append (List.Sublist.refl rest))
    rw [List.append_assoc out buf rest, ← hl] at hpart
    exact hpart.trans h.part
  short := by
    have hle := ht.length_le
    have hs := h.short
    simp only [hl, List.length_append] at hs ⊢
    omega

theorem arrived_of_sublist {text taken : List β} (h : List.Sublist taken text) :
    Arrived text taken (text.length-taken.length) := by
  have := h.length_le
  exact ⟨h, by omega⟩

end FasterConfig.Descriptors
