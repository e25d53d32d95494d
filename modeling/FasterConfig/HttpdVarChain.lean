import FasterConfig.HttpdVariables
import FasterConfig.LinkedChain
import Mathlib.Data.List.Flatten
import Mathlib.Data.List.Perm.Subperm
import Mathlib.Data.List.Range

/-!
# Variables in memory

The nodes of the variables carry two links, one to the next name and one to
the next value of the same name. A call of `httpdAddVariable` makes one node
and sets one link. The rows of values are kept apart, so that what is found
and what is freed follows the multimap.
-/

set_option autoImplicit false

namespace FasterConfig.HttpdVarChain
open FasterConfig.Strings FasterConfig.LinkedChain
open FasterConfig.HttpdVariables (HttpVar Variables skipBlanks)

variable {α : Type}

structure Node (α : Type) where
  name : Text
  value : α
  nextValue : Option ℕ
  nextVariable : Option ℕ

structure Heap (α : Type) where
  node : ℕ → Node α
  brk : ℕ

namespace Heap

def nextValue (h : Heap α) (i : ℕ) : Option ℕ := (h.node i).nextValue

def nextVariable (h : Heap α) (i : ℕ) : Option ℕ := (h.node i).nextVariable

def put (h : Heap α) (i : ℕ) (n : Node α) : Heap α := { h with node := Function.update h.node i n }

/-- `malloc`, `bzero`, and the fields that are set at once. -/
def malloc (h : Heap α) (name : Text) (value : α) : Heap α :=
  { node := Function.update h.node h.brk ⟨name, value, none, none⟩, brk := h.brk+1 }

def linkValue (h : Heap α) (lastVar newVar : ℕ) : Heap α :=
  h.put lastVar { h.node lastVar with nextValue := some newVar }

def linkVariable (h : Heap α) (lastVar newVar : ℕ) : Heap α :=
  h.put lastVar { h.node lastVar with nextVariable := some newVar }

end Heap

structure State (α : Type) where
  heap : Heap α
  vars : Option ℕ

def httpdGetVariableByName (fuel : ℕ) (s : State α) (name : Text) : Option (Option ℕ) :=
  (seek s.heap.nextVariable (fun curVar => (s.heap.node curVar).name = name) fuel none s.vars).map
    Prod.snd

def httpdAddVariable (fuel : ℕ) (s : State α) (name : Text) (value : α) : Option (State α) := do
  let name := skipBlanks name
  let newVar := s.heap.brk
  let heap := s.heap.malloc name value
  let (lastVar, curVar) ←
    seek heap.nextVariable (fun curVar => (heap.node curVar).name = name) fuel none s.vars
  match curVar with
  | some curVar =>
    let (lastVar, _) ← seek heap.nextValue (fun _ => false) fuel lastVar (some curVar)
    return { s with heap := lastVar.elim heap fun lastVar => heap.linkValue lastVar newVar }
  | none => match lastVar with
    | some lastVar => return { s with heap := heap.linkVariable lastVar newVar }
    | none => return ⟨heap, some newVar⟩

def addAll (fuel : ℕ) : State α → List (Text × α) → Option (State α)
  | s, [] => some s
  | s, a::adds => (httpdAddVariable fuel s a.1 a.2).bind fun s => addAll fuel s adds

/-- The nodes in the order they are freed in, and the memory with the links that are cut. -/
def httpdFreeVariables : ℕ → Heap α → Option ℕ → Option (Heap α × List ℕ)
  | 0, _, _ => none
  | _+1, h, none => some (h, [])
  | fuel+1, h, some var => do
    let (h, freed) ← httpdFreeVariables fuel h (h.nextVariable var)
    let h := h.put var { h.node var with nextVariable := none }
    let values ← follow h.nextValue fuel (some var)
    return (h, freed ++ values)

/-! ## Nodes after a change -/

namespace Heap
variable (h : Heap α)

def name (i : ℕ) : Text := (h.node i).name

def value (i : ℕ) : α := (h.node i).value

theorem node_malloc (name : Text) (value : α) (i : ℕ) (hi : i < h.brk) :
    (h.malloc name value).node i = h.node i := Function.update_of_ne (Nat.ne_of_lt hi) _ _

theorem malloc_new (name : Text) (value : α) :
    (h.malloc name value).node h.brk = ⟨name, value, none, none⟩ := Function.update_self _ _ _

theorem put_field {β : Type*} (f : Node α → β) (i j : ℕ) (n : Node α) :
    f ((h.put i n).node j) = Function.update (fun j => f (h.node j)) i (f n) j := by
  simp only [put]
  by_cases hj : j = i
  · rw [hj, Function.update_self, Function.update_self]
  · rw [Function.update_of_ne hj, Function.update_of_ne hj]

@[simp] theorem nextValue_linkValue (i j : ℕ) :
    (h.linkValue i j).nextValue = Function.update h.nextValue i (some j) := by
  funext k
  exact h.put_field Node.nextValue i k _

@[simp] theorem nextVariable_linkValue (i j : ℕ) :
    (h.linkValue i j).nextVariable = h.nextVariable := by
  funext k
  exact (h.put_field Node.nextVariable i k _).trans (congrFun (Function.update_eq_self i _) k)

@[simp] theorem nextVariable_linkVariable (i j : ℕ) :
    (h.linkVariable i j).nextVariable = Function.update h.nextVariable i (some j) := by
  funext k
  exact h.put_field Node.nextVariable i k _

@[simp] theorem nextValue_linkVariable (i j : ℕ) :
    (h.linkVariable i j).nextValue = h.nextValue := by
  funext k
  exact (h.put_field Node.nextValue i k _).trans (congrFun (Function.update_eq_self i _) k)

@[simp] theorem name_linkValue (i j : ℕ) : (h.linkValue i j).name = h.name := by
  funext k
  exact (h.put_field Node.name i k _).trans (congrFun (Function.update_eq_self i _) k)

@[simp] theorem value_linkValue (i j : ℕ) : (h.linkValue i j).value = h.value := by
  funext k
  exact (h.put_field Node.value i k _).trans (congrFun (Function.update_eq_self i _) k)

@[simp] theorem name_linkVariable (i j : ℕ) : (h.linkVariable i j).name = h.name := by
  funext k
  exact (h.put_field Node.name i k _).trans (congrFun (Function.update_eq_self i _) k)

@[simp] theorem value_linkVariable (i j : ℕ) : (h.linkVariable i j).value = h.value := by
  funext k
  exact (h.put_field Node.value i k _).trans (congrFun (Function.update_eq_self i _) k)

end Heap

structure Heap.Holds (h' h : Heap α) : Prop where
  brk : h'.brk = h.brk
  name : h'.name = h.name
  value : h'.value = h.value

/-! ## The shape -/

structure Row (α : Type) where
  head : ℕ
  more : List ℕ
  var : HttpVar α

def Row.places (r : Row α) : List ℕ := r.head::r.more

def Row.first (new : ℕ) (name : Text) (value : α) : Row α := ⟨new, [], ⟨name, value, []⟩⟩

def Row.grow (r : Row α) (new : ℕ) (value : α) : Row α :=
  { r with
    more := r.more ++ [new]
    var := { r.var with nextValue := r.var.nextValue ++ [value] } }

def places (rows : List (Row α)) : List ℕ := rows.flatMap Row.places

structure Row.Shows (h : Heap α) (r : Row α) : Prop where
  links : Chain h.nextValue (some r.head) r.places
  name : h.name r.head = r.var.name
  values : r.places.map h.value = r.var.value::r.var.nextValue

/-- No place is in two rows or twice in one. -/
structure Shows (s : State α) (rows : List (Row α)) : Prop where
  links : Chain s.heap.nextVariable s.vars (rows.map Row.head)
  shown : ∀ r ∈ rows, r.Shows s.heap
  apart : (places rows).Nodup
  below : ∀ i ∈ places rows, i < s.heap.brk

theorem Row.Shows.congr {h h' : Heap α} {r : Row α} (hr : r.Shows h)
    (hl : ∀ i ∈ r.places, h'.nextValue i = h.nextValue i) (hn : ∀ i ∈ r.places, h'.name i = h.name i)
    (hv : ∀ i ∈ r.places, h'.value i = h.value i) : r.Shows h' where
  links := hr.links.congr hl
  name := (hn r.head List.mem_cons_self).trans hr.name
  values := (List.map_congr_left hv).trans hr.values

theorem mem_places {rows : List (Row α)} {r : Row α} {i : ℕ} (hr : r ∈ rows) (hi : i ∈ r.places) :
    i ∈ places rows := List.mem_flatMap.mpr ⟨r, hr, hi⟩

theorem Shows.malloc {s : State α} {rows : List (Row α)} (h : Shows s rows) (name : Text) (value : α) :
    Shows ⟨s.heap.malloc name value, s.vars⟩ rows := by
  have hsame : ∀ r ∈ rows, ∀ i ∈ r.places, (s.heap.malloc name value).node i = s.heap.node i :=
    fun r hr i hi => s.heap.node_malloc name value i (h.below i (mem_places hr hi))
  constructor
  · apply h.links.congr
    intro i hi
    obtain ⟨r, hr, rfl⟩ := List.mem_map.mp hi
    exact congrArg Node.nextVariable (hsame r hr _ List.mem_cons_self)
  · intro r hr
    apply (h.shown r hr).congr
    · exact fun i hi => congrArg Node.nextValue (hsame r hr i hi)
    · exact fun i hi => congrArg Node.name (hsame r hr i hi)
    · exact fun i hi => congrArg Node.value (hsame r hr i hi)
  · exact h.apart
  · exact fun i hi => Nat.lt_succ_of_lt (h.below i hi)

/-! ## One addition -/

theorem addValue_known (us ws : Variables α) (v : HttpVar α) (value : α)
    (hu : ∀ u ∈ us, u.name ≠ v.name) :
    HttpdVariables.addValue v.name value (us ++ v::ws) =
      us ++ { v with nextValue := v.nextValue ++ [value] }::ws := by
  induction us with
  | nil => rw [List.nil_append, HttpdVariables.addValue, if_pos rfl, List.nil_append]
  | cons u us ih =>
    rw [List.cons_append, HttpdVariables.addValue, if_neg (hu u List.mem_cons_self),
      ih fun w hw => hu w (List.mem_cons_of_mem u hw), List.cons_append]

theorem addValue_new (us : Variables α) (name : Text) (value : α) (hu : ∀ u ∈ us, u.name ≠ name) :
    HttpdVariables.addValue name value us = us ++ [⟨name, value, []⟩] := by
  induction us with
  | nil => rfl
  | cons u us ih =>
    rw [HttpdVariables.addValue, if_neg (hu u List.mem_cons_self),
      ih fun w hw => hu w (List.mem_cons_of_mem u hw), List.cons_append]

theorem length_places (rows : List (Row α)) : rows.length ≤ (places rows).length := by
  induction rows with
  | nil => exact Nat.le_refl _
  | cons r rows ih =>
    rw [places, List.flatMap_cons, List.length_append, ← places, List.length_cons, Row.places,
      List.length_cons]
    omega

theorem Shows.count {s : State α} {rows : List (Row α)} (h : Shows s rows) :
    (places rows).length ≤ s.heap.brk := by
  have hsub : places rows ⊆ List.range s.heap.brk :=
    fun i hi => List.mem_range.mpr (h.below i hi)
  simpa using (List.subperm_of_subset h.apart hsub).length_le

theorem Row.Shows.extend {h : Heap α} {r : Row α} (hr : r.Shows h) (is : List ℕ) (last new : ℕ)
    (hp : r.places = is ++ [last]) (hn : (r.places ++ [new]).Nodup) (hv : h.nextValue new = none) :
    (r.grow new (h.value new)).Shows (h.linkValue last new) where
  links := by
    have hl := hr.links
    rw [hp] at hl hn
    rw [List.append_assoc] at hn
    have hlink := hl.link hn hv
    rw [Heap.nextValue_linkValue, Row.places]
    change Chain _ _ (r.places ++ [new])
    rwa [hp, List.append_assoc]
  name := by
    rw [Heap.name_linkValue]
    exact hr.name
  values := by
    change (r.places ++ [new]).map _ = _
    rw [Heap.value_linkValue, List.map_append, hr.values]
    rfl

theorem heads_sublist (rows : List (Row α)) : List.Sublist (rows.map Row.head) (places rows) := by
  induction rows with
  | nil => exact List.Sublist.slnil
  | cons r rows ih =>
    rw [List.map_cons, places, List.flatMap_cons, Row.places, List.cons_append, ← places]
    exact (ih.trans (List.sublist_append_right _ _)).cons_cons r.head

theorem places_append (xs ys : List (Row α)) : places (xs ++ ys) = places xs ++ places ys :=
  List.flatMap_append

theorem places_cons (r : Row α) (rows : List (Row α)) : places (r::rows) = r.places ++ places rows := rfl

section Add
variable {s : State α} {rows rows' : List (Row α)} (h : Shows s rows)
include h

theorem Shows.brk_not_mem : s.heap.brk ∉ places rows := fun hm => Nat.lt_irrefl _ (h.below _ hm)

theorem Shows.grown (hp : (places rows').Perm (s.heap.brk::places rows)) :
    (places rows').Nodup ∧ ∀ i ∈ places rows', i < s.heap.brk+1 := by
  constructor
  · exact hp.nodup_iff.mpr (List.nodup_cons.mpr ⟨h.brk_not_mem, h.apart⟩)
  · intro i hi
    rcases List.mem_cons.mp (hp.subset hi) with rfl | hi
    · exact Nat.lt_succ_self _
    · exact Nat.lt_succ_of_lt (h.below i hi)

theorem Shows.head_named {r : Row α} (hr : r ∈ rows) (name : Text) :
    decide ((s.heap.node r.head).name = name) = decide (r.var.name = name) := by
  rw [← (h.shown r hr).name]
  rfl

end Add

theorem Shows.seek_known {s : State α} {xs ys : List (Row α)} {r : Row α}
    (h : Shows s (xs ++ r::ys)) (name : Text) (hr : r.var.name = name)
    (hx : ∀ x ∈ xs, x.var.name ≠ name) (fuel : ℕ) (hf : xs.length < fuel) :
    seek s.heap.nextVariable (fun curVar => (s.heap.node curVar).name = name) fuel none s.vars =
      some ((xs.map Row.head).getLast?.or none, some r.head) := by
  have hlinks := h.links
  rw [List.map_append, List.map_cons] at hlinks
  apply seek_some hlinks
  · intro j hj
    obtain ⟨x, hxm, rfl⟩ := List.mem_map.mp hj
    exact (h.head_named (by simp [hxm]) name).trans (decide_eq_false (hx x hxm))
  · exact (h.head_named (by simp) name).trans (decide_eq_true hr)
  · rwa [List.length_map]

theorem Shows.seek_new {s : State α} {rows : List (Row α)} (h : Shows s rows) (name : Text)
    (hx : ∀ x ∈ rows, x.var.name ≠ name) (fuel : ℕ) (hf : rows.length < fuel) :
    seek s.heap.nextVariable (fun curVar => (s.heap.node curVar).name = name) fuel none s.vars =
      some ((rows.map Row.head).getLast?.or none, none) := by
  apply seek_none h.links
  · intro j hj
    obtain ⟨x, hxm, rfl⟩ := List.mem_map.mp hj
    exact (h.head_named hxm name).trans (decide_eq_false (hx x hxm))
  · rwa [List.length_map]

theorem grown_places (xs ys : List (Row α)) (r : Row α) (new : ℕ) (value : α) :
    (places (xs ++ r.grow new value::ys)).Perm (new::places (xs ++ r::ys)) := by
  have hrow : (r.grow new value).places = r.places ++ [new] := rfl
  rw [places_append, places_append, places_cons, places_cons, hrow, List.append_assoc r.places,
    ← List.append_assoc, ← List.append_assoc (places xs) r.places]
  exact List.perm_middle

theorem not_mem_other (xs ys : List (Row α)) (r x : Row α) (i : ℕ) (h : (places (xs ++ r::ys)).Nodup)
    (hx : x ∈ xs ++ ys) (hi : i ∈ r.places) : i ∉ x.places := by
  have hp : (places (xs ++ r::ys)).Perm (r.places ++ places (xs ++ ys)) :=
    (List.perm_middle (a := r)).flatMap_right Row.places
  exact fun hm => (List.nodup_append.mp (hp.nodup_iff.mp h)).2.2 i hi i (mem_places hx hm) rfl

theorem add_known (s : State α) (xs ys : List (Row α)) (r : Row α) (h : Shows s (xs ++ r::ys))
    (fuel : ℕ) (hf : s.heap.brk+1 < fuel) (name : Text) (value : α) (hr : r.var.name = skipBlanks name)
    (hx : ∀ x ∈ xs, x.var.name ≠ skipBlanks name) :
    ∃ heap, httpdAddVariable fuel s name value = some ⟨heap, s.vars⟩ ∧
      heap.Holds (s.heap.malloc (skipBlanks name) value) ∧
      Shows ⟨heap, s.vars⟩ (xs ++ r.grow s.heap.brk value::ys) := by
  obtain ⟨is, last, hplaces⟩ : ∃ is last, r.places = is ++ [last] :=
    ⟨_, _, (List.dropLast_append_getLast (List.cons_ne_nil r.head r.more)).symm⟩
  have hm := h.malloc (skipBlanks name) value
  have hnew := s.heap.malloc_new (skipBlanks name) value
  have hcount := h.count
  have hlen := length_places (xs ++ r::ys)
  rw [places_append, places_cons, List.length_append, List.length_append] at hcount
  rw [places_append, places_cons, List.length_append, List.length_append, List.length_append,
    List.length_cons] at hlen
  have hrow := hm.shown r (by simp)
  generalize hheap : s.heap.malloc (skipBlanks name) value = m at *
  have hlinks := hm.links
  rw [List.map_append, List.map_cons] at hlinks
  have hseek : seek m.nextVariable (fun curVar => (m.node curVar).name = skipBlanks name) fuel none
      s.vars = some ((xs.map Row.head).getLast?.or none, some r.head) :=
    hm.seek_known _ hr hx fuel (by omega)
  have hvalues : seek m.nextValue (fun _ => false) fuel ((xs.map Row.head).getLast?.or none)
      (some r.head) = some (some last, none) := by
    rw [seek_none hrow.links (fun _ _ => rfl) fuel (by omega), hplaces, List.getLast?_concat,
      Option.some_or]
  have hbrk : m.brk = s.heap.brk+1 := hheap ▸ rfl
  obtain ⟨hapart, hbelow⟩ := h.grown (grown_places xs ys r s.heap.brk value)
  refine ⟨m.linkValue last s.heap.brk, ?_,
    ⟨rfl, Heap.name_linkValue m _ _, Heap.value_linkValue m _ _⟩, ?_, ?_, hapart, ?_⟩
  · simp only [httpdAddVariable, hheap, hseek, Option.bind_eq_bind, Option.bind_some, hvalues]
    rfl
  · rw [Heap.nextVariable_linkValue, List.map_append, List.map_cons]
    exact hlinks
  · have hlast : last ∈ r.places := by rw [hplaces]; simp
    have hvalue : m.value s.heap.brk = value := congrArg Node.value hnew
    have hself : (r.grow s.heap.brk value).Shows (m.linkValue last s.heap.brk) := by
      rw [← hvalue]
      apply hrow.extend is last _ hplaces _ (congrArg Node.nextValue hnew)
      rw [places_append, places_cons] at hapart
      exact (List.nodup_append.mp (List.nodup_append.mp hapart).2.1).1
    intro x hxm
    by_cases hxr : x = r.grow s.heap.brk value
    · rw [hxr]
      exact hself
    · have hother : x ∈ xs ++ ys := by simpa [hxr] using hxm
      apply (hm.shown x (by simpa using Or.imp_right .inr (List.mem_append.mp hother))).congr
      · intro i hi
        have hi : i ≠ last := by
          rintro rfl
          exact not_mem_other xs ys r x i h.apart hother hlast hi
        rw [Heap.nextValue_linkValue, Function.update_of_ne hi]
      · exact fun i _ => congrFun (Heap.name_linkValue m last _) i
      · exact fun i _ => congrFun (Heap.value_linkValue m last _) i
  · exact fun i hi => lt_of_lt_of_eq (hbelow i hi) hbrk.symm

theorem add_new (s : State α) (rows : List (Row α)) (h : Shows s rows) (fuel : ℕ)
    (hf : s.heap.brk+1 < fuel) (name : Text) (value : α)
    (hx : ∀ x ∈ rows, x.var.name ≠ skipBlanks name) :
    ∃ s', httpdAddVariable fuel s name value = some s' ∧
      s'.heap.Holds (s.heap.malloc (skipBlanks name) value) ∧
      Shows s' (rows ++ [.first s.heap.brk (skipBlanks name) value]) := by
  have hm := h.malloc (skipBlanks name) value
  have hnew := s.heap.malloc_new (skipBlanks name) value
  have hcount := h.count
  have hlen := length_places rows
  have hperm : (places (rows ++ [.first s.heap.brk (skipBlanks name) value])).Perm
      (s.heap.brk::places rows) := by
    rw [places_append]
    exact List.perm_append_comm
  obtain ⟨hapart, hbelow⟩ := h.grown hperm
  have hheads := (heads_sublist (rows ++ [.first s.heap.brk (skipBlanks name) value])).nodup hapart
  rw [List.map_append] at hheads
  generalize hheap : s.heap.malloc (skipBlanks name) value = m at *
  have hbrk : m.brk = s.heap.brk+1 := hheap ▸ rfl
  have hseek : seek m.nextVariable (fun curVar => (m.node curVar).name = skipBlanks name) fuel none
      s.vars = some ((rows.map Row.head).getLast?.or none, none) :=
    hm.seek_new _ hx fuel (by omega)
  have hself : ∀ h' : Heap α, h'.nextValue = m.nextValue → h'.name = m.name → h'.value = m.value →
      ∀ x ∈ rows ++ [.first s.heap.brk (skipBlanks name) value], x.Shows h' := by
    intro h' hl hn hv x hxm
    rcases List.mem_append.mp hxm with hxm | hxm
    · apply (hm.shown x hxm).congr
      · exact fun i _ => congrFun hl i
      · exact fun i _ => congrFun hn i
      · exact fun i _ => congrFun hv i
    · rw [List.mem_singleton.mp hxm]
      constructor
      · exact ⟨rfl, (congrFun hl _).trans (congrArg Node.nextValue hnew)⟩
      · exact (congrFun hn _).trans (congrArg Node.name hnew)
      · rw [hv]
        exact congrArg (fun n => [Node.value n]) hnew
  rcases List.eq_nil_or_concat' rows with rfl | ⟨front, last, rfl⟩
  · refine ⟨⟨m, some s.heap.brk⟩, ?_, ⟨rfl, rfl, rfl⟩, ?_, hself m rfl rfl rfl, hapart,
      fun i hi => lt_of_lt_of_eq (hbelow i hi) hbrk.symm⟩
    · simp only [httpdAddVariable, hheap, hseek, Option.bind_eq_bind, Option.bind_some]
      rfl
    · exact ⟨rfl, congrArg Node.nextVariable hnew⟩
  · refine ⟨⟨m.linkVariable last.head s.heap.brk, s.vars⟩, ?_,
      ⟨rfl, Heap.name_linkVariable m _ _, Heap.value_linkVariable m _ _⟩, ?_,
      hself _ (Heap.nextValue_linkVariable m _ _) (Heap.name_linkVariable m _ _)
        (Heap.value_linkVariable m _ _), hapart,
      fun i hi => lt_of_lt_of_eq (hbelow i hi) hbrk.symm⟩
    · simp only [httpdAddVariable, hheap, hseek, Option.bind_eq_bind, Option.bind_some, List.map_append,
        List.map_cons, List.map_nil, List.getLast?_concat, Option.some_or]
      rfl
    · have hl := hm.links
      rw [List.map_append] at hl hheads
      rw [List.append_assoc] at hheads
      rw [List.map_append, List.map_append, List.append_assoc, Heap.nextVariable_linkVariable]
      exact hl.link hheads (congrArg Node.nextVariable hnew)

theorem add_shows (s : State α) (rows : List (Row α)) (h : Shows s rows) (fuel : ℕ)
    (hf : s.heap.brk+1 < fuel) (name : Text) (value : α) :
    ∃ s' rows', httpdAddVariable fuel s name value = some s' ∧ Shows s' rows' ∧
      s'.heap.Holds (s.heap.malloc (skipBlanks name) value) ∧
      rows'.map Row.var = HttpdVariables.httpdAddVariable (rows.map Row.var) name value ∧
      (places rows').Perm (s.heap.brk::places rows) := by
  rw [HttpdVariables.httpdAddVariable]
  cases hfind : rows.find? fun r => r.var.name = skipBlanks name with
  | some r =>
    obtain ⟨hr, xs, ys, rfl, hx⟩ := List.find?_eq_some_iff_append.mp hfind
    have hr := of_decide_eq_true hr
    have hx : ∀ x ∈ xs, x.var.name ≠ skipBlanks name := by
      intro x hxm
      simpa using hx x hxm
    obtain ⟨heap, ha, hb, hs⟩ := add_known s xs ys r h fuel hf name value hr hx
    refine ⟨_, _, ha, hs, hb, ?_, grown_places xs ys r s.heap.brk value⟩
    rw [← hr, List.map_append, List.map_append, List.map_cons, List.map_cons, addValue_known]
    · rfl
    · intro u hu
      obtain ⟨x, hxm, rfl⟩ := List.mem_map.mp hu
      exact hr ▸ hx x hxm
  | none =>
    have hx : ∀ x ∈ rows, x.var.name ≠ skipBlanks name := by
      intro x hxm
      simpa using List.find?_eq_none.mp hfind x hxm
    obtain ⟨s', ha, hb, hs⟩ := add_new s rows h fuel hf name value hx
    refine ⟨_, _, ha, hs, hb, ?_, ?_⟩
    · rw [List.map_append, addValue_new]
      · rfl
      · intro u hu
        obtain ⟨x, hxm, rfl⟩ := List.mem_map.mp hu
        exact hx x hxm
    · rw [places_append]
      exact List.perm_append_comm

/-! ## Any sequence of additions -/

/-- The nodes handed out for a sequence of additions hold them. -/
def Added (h : Heap α) (start : ℕ) (adds : List (Text × α)) : Prop :=
  h.brk = start+adds.length ∧
    (List.range' start adds.length).map (fun i => (h.name i, h.value i)) =
      adds.map fun a => (skipBlanks a.1, a.2)

theorem Added.add {h h' : Heap α} {start : ℕ} {adds : List (Text × α)} (ha : Added h start adds)
    (name : Text) (value : α) (hh : h'.Holds (h.malloc (skipBlanks name) value)) :
    Added h' start (adds ++ [(name, value)]) := by
  obtain ⟨hb, hm⟩ := ha
  have hnew := h.malloc_new (skipBlanks name) value
  constructor
  · rw [hh.brk, List.length_append, ← Nat.add_assoc, ← hb]
    rfl
  · rw [List.length_append, List.length_singleton, List.range'_concat, List.map_append,
      List.map_append, ← hm, Nat.one_mul, ← hb]
    congr 1
    · apply List.map_congr_left
      intro i hi
      have hsame := h.node_malloc (skipBlanks name) value i
        (by rw [hb]; exact (List.mem_range'_1.mp hi).2)
      rw [hh.name, hh.value]
      exact congrArg₂ Prod.mk (congrArg Node.name hsame) (congrArg Node.value hsame)
    · rw [List.map_singleton, List.map_singleton, hh.name, hh.value]
      exact congrArg (fun n => [(Node.name n, Node.value n)]) hnew

theorem addAll_concat (fuel : ℕ) (s : State α) (adds : List (Text × α)) (a : Text × α) :
    addAll fuel s (adds ++ [a]) =
      (addAll fuel s adds).bind fun s => httpdAddVariable fuel s a.1 a.2 := by
  induction adds generalizing s with
  | nil =>
    rw [List.nil_append, addAll, addAll, Option.bind_some]
    exact Option.bind_fun_some _
  | cons b adds ih =>
    rw [List.cons_append, addAll, addAll, Option.bind_assoc]
    congr 1
    funext s
    exact ih s

def multimap (adds : List (Text × α)) : Variables α :=
  adds.foldl (fun vars a => HttpdVariables.httpdAddVariable vars a.1 a.2) []

theorem addAll_shows (heap : Heap α) (adds : List (Text × α)) (fuel : ℕ)
    (hf : heap.brk+adds.length < fuel) :
    ∃ s rows, addAll fuel ⟨heap, none⟩ adds = some s ∧ Shows s rows ∧ Added s.heap heap.brk adds ∧
      rows.map Row.var = multimap adds ∧ (places rows).Perm (List.range' heap.brk adds.length) := by
  induction adds using List.reverseRecOn with
  | nil =>
    refine ⟨⟨heap, none⟩, [], rfl, ⟨rfl, ?_, List.nodup_nil, ?_⟩, ⟨rfl, rfl⟩, rfl, List.Perm.refl _⟩
    · exact fun r hr => absurd hr List.not_mem_nil
    · exact fun i hi => absurd hi List.not_mem_nil
  | append_singleton adds a ih =>
    rw [List.length_append, List.length_singleton] at hf
    obtain ⟨s, rows, hrun, hs, ha, hv, hp⟩ := ih (by omega)
    obtain ⟨s', rows', hadd, hs', hh, hv', hp'⟩ :=
      add_shows s rows hs fuel (by rw [ha.1]; omega) a.1 a.2
    refine ⟨s', rows', ?_, hs', ha.add a.1 a.2 hh, ?_, ?_⟩
    · rw [addAll_concat, hrun, Option.bind_some, hadd]
    · rw [hv', hv, multimap, multimap, List.foldl_concat]
    · rw [List.length_append, List.length_singleton, List.range'_concat, Nat.one_mul, ← ha.1]
      exact hp'.trans ((hp.cons _).trans (List.perm_append_singleton s.heap.brk _).symm)

/-! ## The multimap -/

def addedNames (adds : List (Text × α)) : List Text := (adds.map fun a => skipBlanks a.1).eraseDups

def addedValues (adds : List (Text × α)) (name : Text) : List α :=
  (adds.filter fun a => skipBlanks a.1 = name).map Prod.snd

def names (vars : Variables α) : List Text := vars.map HttpVar.name

theorem addedNames_concat (adds : List (Text × α)) (a : Text × α) :
    addedNames (adds ++ [a]) =
      if skipBlanks a.1 ∈ addedNames adds then addedNames adds
      else addedNames adds ++ [skipBlanks a.1] := by
  have hm : skipBlanks a.1 ∈ addedNames adds ↔ skipBlanks a.1 ∈ adds.map fun a => skipBlanks a.1 :=
    List.mem_eraseDups
  simp only [hm]
  rw [addedNames, List.map_append, List.eraseDups_append, List.map_singleton, ← addedNames]
  split_ifs with h
  · simp [List.removeAll, h]
  · simp [List.removeAll, h, List.eraseDups_cons]

theorem addedValues_concat (adds : List (Text × α)) (a : Text × α) (name : Text) :
    addedValues (adds ++ [a]) name =
      addedValues adds name ++ if skipBlanks a.1 = name then [a.2] else [] := by
  rw [addedValues, List.filter_append, List.map_append, ← addedValues]
  split_ifs with h <;> simp [h]

theorem addValue_cases (name : Text) (value : α) (vars : Variables α) :
    (∃ us v ws, vars = us ++ v::ws ∧ v.name = name ∧ (∀ u ∈ us, u.name ≠ name) ∧
      HttpdVariables.addValue name value vars =
        us ++ { v with nextValue := v.nextValue ++ [value] }::ws) ∨
    ((∀ u ∈ vars, u.name ≠ name) ∧
      HttpdVariables.addValue name value vars = vars ++ [⟨name, value, []⟩]) := by
  cases hfind : vars.find? fun v => v.name = name with
  | some v =>
    obtain ⟨hv, us, ws, rfl, hu⟩ := List.find?_eq_some_iff_append.mp hfind
    obtain rfl := of_decide_eq_true hv
    have hu : ∀ u ∈ us, u.name ≠ v.name := by simpa using hu
    exact .inl ⟨us, v, ws, rfl, rfl, hu, addValue_known us ws v value hu⟩
  | none =>
    have hu : ∀ u ∈ vars, u.name ≠ name := by simpa using List.find?_eq_none.mp hfind
    exact .inr ⟨hu, addValue_new vars name value hu⟩

theorem nodup_addedNames (adds : List (Text × α)) : (addedNames adds).Nodup := by
  induction adds using List.reverseRecOn with
  | nil => exact List.nodup_nil
  | append_singleton adds a ih =>
    rw [addedNames_concat]
    split_ifs with h
    · exact ih
    · exact List.perm_append_comm.nodup_iff.mp (List.nodup_cons.mpr ⟨h, ih⟩ : ([_] ++ _).Nodup)

theorem mem_names {vars : Variables α} {v : HttpVar α} (hv : v ∈ vars) : v.name ∈ names vars :=
  List.mem_map_of_mem hv

/-- Names in the order of their first use, values in the order of their addition. -/
theorem multimap_spec (adds : List (Text × α)) :
    names (multimap adds) = addedNames adds ∧
      ∀ v ∈ multimap adds, v.value::v.nextValue = addedValues adds v.name := by
  induction adds using List.reverseRecOn with
  | nil => exact ⟨rfl, fun v hv => absurd hv List.not_mem_nil⟩
  | append_singleton adds a ih =>
    obtain ⟨hn, hv⟩ := ih
    have hnodup := nodup_addedNames adds
    have hstep : multimap (adds ++ [a]) =
        HttpdVariables.addValue (skipBlanks a.1) a.2 (multimap adds) := by
      rw [multimap, multimap, List.foldl_concat]
      rfl
    have hother : ∀ w ∈ multimap adds, w.name ≠ skipBlanks a.1 →
        w.value::w.nextValue = addedValues (adds ++ [a]) w.name := by
      intro w hw hne
      rw [addedValues_concat, if_neg (Ne.symm hne), List.append_nil]
      exact hv w hw
    rw [hstep, addedNames_concat, ← hn]
    rw [← hn] at hnodup
    rcases addValue_cases (skipBlanks a.1) a.2 (multimap adds) with
      ⟨us, v, ws, he, hname, hu, ha⟩ | ⟨hu, ha⟩
    · have hvm : v ∈ multimap adds := by rw [he]; simp
      rw [if_pos (hname ▸ mem_names hvm)]
      rw [he, names, List.map_append, List.map_cons] at hnodup
      have hw : ∀ w ∈ ws, w.name ≠ v.name := by
        intro w hw heq
        have hin := List.mem_map_of_mem (f := HttpVar.name) hw
        exact (List.nodup_cons.mp (List.nodup_append.mp hnodup).2.1).1 (heq ▸ hin)
      rw [ha]
      constructor
      · rw [he, names, names, List.map_append, List.map_append, List.map_cons, List.map_cons]
      · intro w hwm
        rcases List.mem_append.mp hwm with hwm | hwm
        · exact hother w (by rw [he]; simp [hwm]) (hu w hwm)
        rcases List.mem_cons.mp hwm with rfl | hwm
        · change (v.value::v.nextValue) ++ [a.2] = _
          rw [addedValues_concat, if_pos hname.symm, hv v hvm]
        · exact hother w (by rw [he]; simp [hwm]) (hname ▸ hw w hwm)
    · have hnot : skipBlanks a.1 ∉ names (multimap adds) := by
        intro hm
        obtain ⟨w, hw, heq⟩ := List.mem_map.mp hm
        exact hu w hw heq
      rw [if_neg hnot, ha]
      constructor
      · rw [names, names, List.map_append, List.map_singleton]
      · intro w hwm
        rcases List.mem_append.mp hwm with hwm | hwm
        · exact hother w hwm (hu w hwm)
        · obtain rfl := List.mem_singleton.mp hwm
          have hnone : addedValues adds (skipBlanks a.1) = [] := by
            rw [addedValues, List.filter_eq_nil_iff.mpr, List.map_nil]
            intro b hb heq
            apply hnot
            rw [hn]
            exact List.mem_eraseDups.mpr (List.mem_map.mpr ⟨b, hb, of_decide_eq_true heq⟩)
          rw [addedValues_concat, if_pos rfl, hnone, List.nil_append]

/-! ## Lookup and release -/

theorem lookup_shows (s : State α) (rows : List (Row α)) (h : Shows s rows) (fuel : ℕ)
    (hf : rows.length < fuel) (n : Text) :
    httpdGetVariableByName fuel s n =
      some ((rows.find? fun r => r.var.name = n).map Row.head) := by
  rw [httpdGetVariableByName]
  cases hfind : rows.find? fun r => r.var.name = n with
  | some r =>
    obtain ⟨hr, xs, ys, rfl, hx⟩ := List.find?_eq_some_iff_append.mp hfind
    rw [List.length_append] at hf
    rw [h.seek_known n (of_decide_eq_true hr) (fun x hxm => by simpa using hx x hxm) fuel (by omega)]
    rfl
  | none =>
    rw [h.seek_new n (fun x hxm => by simpa using List.find?_eq_none.mp hfind x hxm) fuel hf]
    rfl

theorem free_rows (h : Heap α) (rows : List (Row α)) (var : Option ℕ) (fuel : ℕ)
    (hf : rows.length+(places rows).length < fuel)
    (hl : Chain h.nextVariable var (rows.map Row.head))
    (hv : ∀ r ∈ rows, Chain h.nextValue (some r.head) r.places) :
    ∃ h', httpdFreeVariables fuel h var = some (h', places rows.reverse) ∧
      h'.nextValue = h.nextValue := by
  induction rows generalizing var fuel with
  | nil =>
    obtain ⟨fuel, rfl⟩ := Nat.exists_eq_add_of_le' hf
    rw [show var = none from hl]
    exact ⟨h, rfl, rfl⟩
  | cons r rows ih =>
    obtain ⟨fuel, rfl⟩ := Nat.exists_eq_add_of_le' (Nat.succ_le_of_lt (Nat.zero_lt_of_lt hf))
    obtain ⟨rfl, hl⟩ := hl
    rw [places_cons, List.length_append, List.length_cons] at hf
    obtain ⟨h', hrun, hsame⟩ := ih (h.nextVariable r.head) fuel (by omega) hl
      fun x hx => hv x (List.mem_cons_of_mem r hx)
    have hcut : (h'.put r.head { h'.node r.head with nextVariable := none }).nextValue =
        h.nextValue := by
      rw [← hsame]
      funext k
      exact (h'.put_field Node.nextValue _ k _).trans (congrFun (Function.update_eq_self _ _) k)
    have hrow := follow_chain (hv r List.mem_cons_self) fuel (by omega)
    refine ⟨_, ?_, hcut⟩
    simp only [httpdFreeVariables, hrun, Option.bind_eq_bind, Option.bind_some, hcut, hrow]
    rw [List.reverse_cons, places_append, places_cons]
    simp [places]

/-- The memory after any additions to a request without variables, what is found there, and
what is freed. -/
theorem variables_multimap (heap : Heap α) (adds : List (Text × α)) (extra : ℕ) :
    let fuel := heap.brk+2*adds.length+1+extra
    ∃ (s : State α) (rows : List (Row α)), addAll fuel ⟨heap, none⟩ adds = some s ∧
      Chain s.heap.nextVariable s.vars (rows.map Row.head) ∧
      (rows.map fun r => s.heap.name r.head) = addedNames adds ∧ (addedNames adds).Nodup ∧
      (∀ r ∈ rows, Chain s.heap.nextValue (some r.head) r.places ∧
        r.places.map s.heap.value = addedValues adds (s.heap.name r.head)) ∧
      (List.range' heap.brk adds.length).map (fun i => (s.heap.name i, s.heap.value i)) =
        adds.map (fun a => (skipBlanks a.1, a.2)) ∧
      (places rows).Perm (List.range' heap.brk adds.length) ∧
      (∀ n, ∃ found, httpdGetVariableByName fuel s n = some found ∧
        (∀ i ∈ found, i ∈ rows.map Row.head ∧ s.heap.name i = n) ∧
        found.map s.heap.value = (addedValues adds n).head?) ∧
      ∃ h' freed, httpdFreeVariables fuel s.heap s.vars = some (h', freed) ∧
        freed.Perm (List.range' heap.brk adds.length) := by
  intro fuel
  obtain ⟨s, rows, hrun, hs, ha, hv, hp⟩ := addAll_shows heap adds fuel (by omega)
  obtain ⟨hnames, hvalues⟩ := multimap_spec adds
  have hcount := hp.length_eq
  rw [List.length_range'] at hcount
  have hrows := length_places rows
  have hvar : ∀ r ∈ rows, r.var ∈ multimap adds := fun r hr => hv ▸ List.mem_map_of_mem hr
  have hrow : ∀ r ∈ rows, r.places.map s.heap.value = addedValues adds r.var.name :=
    fun r hr => (hs.shown r hr).values.trans (hvalues r.var (hvar r hr))
  have hnamed : (rows.map fun r => s.heap.name r.head) = addedNames adds := by
    rw [← hnames, ← hv, names, List.map_map]
    exact List.map_congr_left fun r hr => (hs.shown r hr).name
  obtain ⟨h', hfree, -⟩ := free_rows s.heap rows s.vars fuel (by omega) hs.links
    fun r hr => (hs.shown r hr).links
  refine ⟨s, rows, hrun, hs.links, hnamed, nodup_addedNames adds, ?_, ha.2, hp, ?_, h', _, hfree, ?_⟩
  · intro r hr
    rw [(hs.shown r hr).name]
    exact ⟨(hs.shown r hr).links, hrow r hr⟩
  · intro n
    refine ⟨_, lookup_shows s rows hs fuel (by omega) n, ?_⟩
    cases hfind : rows.find? fun r => r.var.name = n with
    | some r =>
      have hr := List.mem_of_find?_eq_some hfind
      have hn : r.var.name = n := by simpa using List.find?_some hfind
      constructor
      · intro i hi
        obtain rfl := Option.some.inj hi
        exact ⟨List.mem_map_of_mem hr, (hs.shown r hr).name.trans hn⟩
      · rw [← hn, ← hrow r hr]
        rfl
    | none =>
      constructor
      · exact fun i hi => nomatch hi
      · have hnot : n ∉ addedNames adds := by
          rw [← hnames, ← hv, names, List.map_map]
          intro hm
          obtain ⟨r, hr, hn⟩ := List.mem_map.mp hm
          exact absurd hn (by simpa using List.find?_eq_none.mp hfind r hr)
        rw [addedValues, List.filter_eq_nil_iff.mpr]
        · rfl
        · intro a ham hn
          exact hnot (List.mem_eraseDups.mpr (List.mem_map.mpr ⟨a, ham, of_decide_eq_true hn⟩))
  · exact ((List.reverse_perm rows).flatMap_right Row.places).trans hp

end FasterConfig.HttpdVarChain
