import Mathlib.Data.List.AList

/-!
# The nat table and its commands

Four built-in chains always exist; user chains are added and deleted by
name. A command either succeeds or leaves the table as it was. Rules are
kept as an uninterpreted match together with the user chain they jump to,
so only what decides whether a command succeeds is fixed here.
-/

set_option autoImplicit false

namespace FasterConfig.NatTable

inductive Builtin where
  | prerouting
  | input
  | output
  | postrouting
  deriving DecidableEq, Repr

inductive Chain (ν : Type*) where
  | builtin (b : Builtin)
  | user (c : ν)
  deriving DecidableEq, Repr

structure Rule (ν σ : Type*) where
  spec : σ
  jump : Option ν
  deriving DecidableEq, Repr

structure Table (ν σ : Type*) where
  builtin : Builtin → List (Rule ν σ)
  user : AList (fun _ : ν => List (Rule ν σ))

inductive Command (ν σ : Type*) where
  | new (c : ν)
  | append (c : Chain ν) (r : Rule ν σ)
  | insert (c : Chain ν) (r : Rule ν σ)
  | flush (c : Chain ν)
  | delete (c : ν)

section
variable {ν σ : Type*} [DecidableEq ν]

def Table.rules? (t : Table ν σ) : Chain ν → Option (List (Rule ν σ))
  | .builtin b => some (t.builtin b)
  | .user c => t.user.lookup c

def Table.setRules (t : Table ν σ) : Chain ν → List (Rule ν σ) → Table ν σ
  | .builtin b, rs => { t with builtin := Function.update t.builtin b rs }
  | .user c, rs => { t with user := t.user.insert c rs }

def Rule.jumpsTo (c : ν) (r : Rule ν σ) : Bool := r.jump = some c

def Table.referenced (t : Table ν σ) (c : ν) : Bool :=
  [Builtin.prerouting, .input, .output, .postrouting].any (fun b => (t.builtin b).any (Rule.jumpsTo c)) ||
    t.user.entries.any (fun e => e.2.any (Rule.jumpsTo c))

/-- A rule may only jump to a chain that exists. -/
def Table.admits (t : Table ν σ) (r : Rule ν σ) : Bool :=
  match r.jump with
  | none => true
  | some c => (t.rules? (.user c)).isSome

def exec (t : Table ν σ) : Command ν σ → Option (Table ν σ)
  | .new c => if (t.rules? (.user c)).isSome then none else some (t.setRules (.user c) [])
  | .append c r => if t.admits r then (t.rules? c).map (fun rs => t.setRules c (rs ++ [r])) else none
  | .insert c r => if t.admits r then (t.rules? c).map (fun rs => t.setRules c (r::rs)) else none
  | .flush c => (t.rules? c).map (fun _ => t.setRules c [])
  | .delete c => match t.rules? (.user c) with
      | some [] => if t.referenced c then none else some { t with user := t.user.erase c }
      | _ => none

/-- A failing command changes nothing. -/
def execute (t : Table ν σ) (cmd : Command ν σ) : Table ν σ := (exec t cmd).getD t

def executeAll (t : Table ν σ) (cmds : List (Command ν σ)) : Table ν σ := cmds.foldl execute t

@[simp] theorem executeAll_nil (t : Table ν σ) : executeAll t [] = t := rfl

@[simp] theorem executeAll_cons (t : Table ν σ) (cmd : Command ν σ) (cmds : List (Command ν σ)) :
    executeAll t (cmd::cmds) = executeAll (execute t cmd) cmds := rfl

theorem executeAll_append (t : Table ν σ) (cmds rest : List (Command ν σ)) :
    executeAll t (cmds ++ rest) = executeAll (executeAll t cmds) rest := by
  induction cmds generalizing t with
  | nil => rfl
  | cons cmd cmds ih => exact ih _

@[simp] theorem rules_builtin (t : Table ν σ) (b : Builtin) :
    t.rules? (.builtin b) = some (t.builtin b) := rfl

@[simp] theorem setRules_same (t : Table ν σ) (c : Chain ν) (rs : List (Rule ν σ)) :
    (t.setRules c rs).rules? c = some rs := by
  cases c <;> simp [Table.setRules, Table.rules?]

@[simp] theorem setRules_other (t : Table ν σ) (c d : Chain ν) (rs : List (Rule ν σ)) (h : d ≠ c) :
    (t.setRules c rs).rules? d = t.rules? d := by
  cases c with
  | builtin b =>
    cases d with
    | builtin e => simp [Table.setRules, Table.rules?, show e ≠ b from fun he => h (by rw [he])]
    | user d => rfl
  | user c =>
    cases d with
    | builtin e => rfl
    | user d => exact AList.lookup_insert_ne (fun he => h (by rw [he]))

theorem referenced_of_builtin (t : Table ν σ) (c : ν) (b : Builtin) (r : Rule ν σ)
    (hr : r ∈ t.builtin b) (hj : r.jump = some c) : t.referenced c = true := by
  have hb : (t.builtin b).any (Rule.jumpsTo c) = true :=
    List.any_eq_true.mpr ⟨r, hr, by simp [Rule.jumpsTo, hj]⟩
  cases b <;> simp [Table.referenced, hb]

/-! ## Single commands on a known chain -/

theorem execute_flush (t : Table ν σ) (c : Chain ν) (rs : List (Rule ν σ))
    (h : t.rules? c = some rs) : execute t (.flush c) = t.setRules c [] := by
  simp [execute, exec, h]

theorem execute_append (t : Table ν σ) (c : Chain ν) (rs : List (Rule ν σ)) (r : Rule ν σ)
    (h : t.rules? c = some rs) (ha : t.admits r = true) :
    execute t (.append c r) = t.setRules c (rs ++ [r]) := by
  simp [execute, exec, h, ha]

theorem execute_insert (t : Table ν σ) (c : Chain ν) (rs : List (Rule ν σ)) (r : Rule ν σ)
    (h : t.rules? c = some rs) (ha : t.admits r = true) :
    execute t (.insert c r) = t.setRules c (r::rs) := by
  simp [execute, exec, h, ha]

theorem execute_new_present (t : Table ν σ) (c : ν) (rs : List (Rule ν σ))
    (h : t.rules? (.user c) = some rs) : execute t (.new c) = t := by
  simp [execute, exec, h]

theorem execute_new_absent (t : Table ν σ) (c : ν) (h : t.rules? (.user c) = none) :
    execute t (.new c) = t.setRules (.user c) [] := by
  simp [execute, exec, h]

theorem execute_delete_referenced (t : Table ν σ) (c : ν) (h : t.referenced c = true) :
    execute t (.delete c) = t := by
  simp only [execute, exec, h]
  split <;> rfl

/-! ## What a command leaves alone -/

def Command.target : Command ν σ → Chain ν
  | .new c => .user c
  | .append c _ => c
  | .insert c _ => c
  | .flush c => c
  | .delete c => .user c

theorem rewritten_other (t : Table ν σ) (c d : Chain ν) (h : d ≠ c)
    (f : List (Rule ν σ) → List (Rule ν σ)) :
    (((t.rules? c).map fun rs => t.setRules c (f rs)).getD t).rules? d = t.rules? d := by
  cases t.rules? c with
  | none => rfl
  | some rs => exact setRules_other t _ _ _ h

theorem execute_other (t : Table ν σ) (cmd : Command ν σ) (d : Chain ν) (h : d ≠ cmd.target) :
    (execute t cmd).rules? d = t.rules? d := by
  cases cmd with
  | new c =>
    simp only [execute, exec]
    split
    · rfl
    · exact setRules_other t _ _ _ h
  | append c r =>
    simp only [execute, exec]
    split
    · exact rewritten_other t c d h (fun rs => rs ++ [r])
    · rfl
  | insert c r =>
    simp only [execute, exec]
    split
    · exact rewritten_other t c d h (fun rs => r::rs)
    · rfl
  | flush c => exact rewritten_other t c d h (fun _ => [])
  | delete c =>
    simp only [execute, exec]
    split
    · split
      · rfl
      · cases d with
        | builtin b => rfl
        | user d => exact AList.lookup_erase_ne (fun he => h (by rw [he]; rfl))
    · rfl

def Blank (t : Table ν σ) (c : ν) : Prop := ∀ rs, t.rules? (.user c) = some rs → rs = []

def Command.fills (c : ν) : Command ν σ → Prop
  | .append d _ => d = .user c
  | .insert d _ => d = .user c
  | _ => False

theorem blank_flush (t : Table ν σ) (c : ν) : Blank (execute t (.flush (.user c))) c := by
  intro rs h
  cases hc : t.rules? (.user c) with
  | none => simp [execute, exec, hc] at h
  | some qs =>
    rw [execute_flush t _ qs hc, setRules_same] at h
    exact (Option.some.inj h).symm

theorem blank_delete (t : Table ν σ) (c : ν) (h : Blank t c) : Blank (execute t (.delete c)) c := by
  intro rs hr
  simp only [execute, exec] at hr
  split at hr
  · split at hr
    · exact h rs hr
    · simp [Table.rules?] at hr
  · exact h rs hr

theorem blank_new (t : Table ν σ) (c : ν) (h : Blank t c) : Blank (execute t (.new c)) c := by
  intro rs hr
  cases hc : t.rules? (.user c) with
  | none =>
    rw [execute_new_absent t c hc, setRules_same] at hr
    exact (Option.some.inj hr).symm
  | some qs =>
    rw [execute_new_present t c qs hc] at hr
    exact h rs hr

theorem blank_execute (t : Table ν σ) (cmd : Command ν σ) (c : ν) (h : Blank t c)
    (hf : ¬ cmd.fills c) : Blank (execute t cmd) c := by
  by_cases ht : Chain.user c = cmd.target
  · cases cmd with
    | new d => cases ht; exact blank_new t c h
    | append d r => exact absurd ht.symm hf
    | insert d r => exact absurd ht.symm hf
    | flush d => cases ht; exact blank_flush t c
    | delete d => cases ht; exact blank_delete t c h
  · intro rs hr
    rw [execute_other t cmd _ ht] at hr
    exact h rs hr

theorem blank_executeAll (cmds : List (Command ν σ)) (t : Table ν σ) (c : ν) (h : Blank t c)
    (hf : ∀ cmd ∈ cmds, ¬ cmd.fills c) : Blank (executeAll t cmds) c := by
  induction cmds generalizing t with
  | nil => exact h
  | cons cmd cmds ih =>
    exact ih _ (blank_execute t cmd c h (hf cmd (by simp))) (fun d hd => hf d (by simp [hd]))

def Present (t : Table ν σ) (c : ν) : Prop := (t.rules? (.user c)).isSome

theorem present_new (t : Table ν σ) (c : ν) : Present (execute t (.new c)) c := by
  cases hc : t.rules? (.user c) with
  | none => simp [Present, execute_new_absent t c hc]
  | some rs => simp [Present, execute_new_present t c rs hc, hc]

theorem present_execute (t : Table ν σ) (cmd : Command ν σ) (c : ν) (h : Present t c)
    (hd : cmd ≠ .delete c) : Present (execute t cmd) c := by
  obtain ⟨rs, hrs⟩ := Option.isSome_iff_exists.mp h
  by_cases ht : Chain.user c = cmd.target
  · cases cmd with
    | new d => cases ht; exact present_new t c
    | append d r =>
      cases ht
      by_cases ha : t.admits r = true
      · simp [Present, execute_append t _ rs r hrs ha]
      · simp [Present, execute, exec, ha, hrs]
    | insert d r =>
      cases ht
      by_cases ha : t.admits r = true
      · simp [Present, execute_insert t _ rs r hrs ha]
      · simp [Present, execute, exec, ha, hrs]
    | flush d => cases ht; simp [Present, execute_flush t _ rs hrs]
    | delete d => cases ht; exact absurd rfl hd
  · simpa [Present, execute_other t cmd _ ht] using h

theorem present_executeAll (cmds : List (Command ν σ)) (t : Table ν σ) (c : ν) (h : Present t c)
    (hd : ∀ cmd ∈ cmds, cmd ≠ .delete c) : Present (executeAll t cmds) c := by
  induction cmds generalizing t with
  | nil => exact h
  | cons cmd cmds ih =>
    exact ih _ (present_execute t cmd c h (hd cmd (by simp))) (fun d hm => hd d (by simp [hm]))

def HasJump (t : Table ν σ) (b : Builtin) (c : ν) : Prop := ∃ r ∈ t.builtin b, r.jump = some c

theorem jump_append (t : Table ν σ) (b : Builtin) (c : ν) (r : Rule ν σ) (hr : r.jump = some c)
    (h : Present t c) : HasJump (execute t (.append (.builtin b) r)) b c := by
  have ha : t.admits r = true := by simpa [Table.admits, hr, Present] using h
  rw [execute_append t _ _ r (rules_builtin t b) ha]
  exact ⟨r, by simp [Table.setRules], hr⟩

theorem jump_execute_append (t : Table ν σ) (b d : Builtin) (c : ν) (r : Rule ν σ)
    (h : HasJump t b c) : HasJump (execute t (.append (.builtin d) r)) b c := by
  obtain ⟨q, hq, hj⟩ := h
  by_cases ha : t.admits r = true
  · rw [execute_append t _ _ r (rules_builtin t d) ha]
    refine ⟨q, ?_, hj⟩
    by_cases hb : b = d
    · subst hb
      simp [Table.setRules, hq]
    · simpa [Table.setRules, hb] using hq
  · simpa [execute, exec, ha] using ⟨q, hq, hj⟩

theorem builtin_execute (t : Table ν σ) (cmd : Command ν σ) (b : Builtin)
    (h : cmd.target ≠ .builtin b) : (execute t cmd).builtin b = t.builtin b := by
  have ho := execute_other t cmd (.builtin b) h.symm
  simpa only [rules_builtin, Option.some.injEq] using ho

theorem rules_executeAll (cmds : List (Command ν σ)) (t : Table ν σ) (d : Chain ν)
    (h : ∀ cmd ∈ cmds, cmd.target ≠ d) : (executeAll t cmds).rules? d = t.rules? d := by
  induction cmds generalizing t with
  | nil => rfl
  | cons cmd cmds ih =>
    rw [executeAll_cons, ih _ fun e he => h e (by simp [he]),
      execute_other t cmd d (h cmd (by simp)).symm]

theorem builtin_executeAll (cmds : List (Command ν σ)) (t : Table ν σ) (b : Builtin)
    (h : ∀ cmd ∈ cmds, cmd.target ≠ .builtin b) : (executeAll t cmds).builtin b = t.builtin b := by
  induction cmds generalizing t with
  | nil => rfl
  | cons cmd cmds ih =>
    rw [executeAll_cons, ih _ fun d hd => h d (by simp [hd]), builtin_execute t cmd b (h cmd (by simp))]

theorem builtin_append (t : Table ν σ) (b d : Builtin) (c : ν) (r : Rule ν σ)
    (hr : r.jump = some c) (h : Present t c) :
    (execute t (.append (.builtin d) r)).builtin b =
      if b = d then t.builtin b ++ [r] else t.builtin b := by
  have ha : t.admits r = true := by simpa [Table.admits, hr, Present] using h
  rw [execute_append t _ _ r (rules_builtin t d) ha]
  by_cases hb : b = d
  · subst hb
    simp [Table.setRules]
  · simp [Table.setRules, hb]

theorem mem_execute (t : Table ν σ) (cmd : Command ν σ) (d : Chain ν) (rs : List (Rule ν σ))
    (h : (execute t cmd).rules? d = some rs) (r : Rule ν σ) (hr : r ∈ rs) :
    (∃ qs, t.rules? d = some qs ∧ r ∈ qs) ∨ cmd = .append d r ∨ cmd = .insert d r := by
  by_cases hd : d = cmd.target
  · subst hd
    cases cmd with
    | new c =>
      cases hc : t.rules? (.user c) with
      | none =>
        rw [execute_new_absent t c hc, Command.target, setRules_same] at h
        cases h
        cases hr
      | some qs =>
        rw [execute_new_present t c qs hc] at h
        exact .inl ⟨rs, h, hr⟩
    | append c q =>
      cases hc : t.rules? c with
      | none => simp [execute, exec, hc, Command.target] at h
      | some qs =>
        by_cases ha : t.admits q = true
        · rw [execute_append t c qs q hc ha, Command.target, setRules_same] at h
          cases h
          cases List.mem_append.mp hr with
          | inl hq => exact .inl ⟨qs, hc, hq⟩
          | inr hq => rw [List.mem_singleton.mp hq]; exact .inr (.inl rfl)
        · rw [show execute t (.append c q) = t by simp [execute, exec, ha]] at h
          exact .inl ⟨rs, h, hr⟩
    | insert c q =>
      cases hc : t.rules? c with
      | none => simp [execute, exec, hc, Command.target] at h
      | some qs =>
        by_cases ha : t.admits q = true
        · rw [execute_insert t c qs q hc ha, Command.target, setRules_same] at h
          cases h
          cases List.mem_cons.mp hr with
          | inl hq => rw [hq]; exact .inr (.inr rfl)
          | inr hq => exact .inl ⟨qs, hc, hq⟩
        · rw [show execute t (.insert c q) = t by simp [execute, exec, ha]] at h
          exact .inl ⟨rs, h, hr⟩
    | flush c =>
      cases hc : t.rules? c with
      | none => simp [execute, exec, hc, Command.target] at h
      | some qs =>
        rw [execute_flush t c qs hc, Command.target, setRules_same] at h
        cases h
        cases hr
    | delete c =>
      simp only [execute, exec] at h
      split at h
      · split at h
        · exact .inl ⟨rs, h, hr⟩
        · simp [Table.rules?, Command.target] at h
      · exact .inl ⟨rs, h, hr⟩
  · rw [execute_other t cmd d hd] at h
    exact .inl ⟨rs, h, hr⟩

theorem execute_append_absent (t : Table ν σ) (d : Chain ν) (c : ν) (r : Rule ν σ) (hr : r.jump = some c)
    (h : ¬ Present t c) : execute t (.append d r) = t := by
  have ha : ¬ t.admits r = true := by simpa [Table.admits, hr, Present] using h
  simp [execute, exec, ha]

end

/-! ## A family of user chains hooked to built-in chains -/

section
variable {ν σ ι : Type*} [DecidableEq ν] [DecidableEq ι]

/-- Every chain of the family exists with the listed rules, and the built-in
chain it belongs to has a rule that jumps to it. -/
structure Hooked (name : ι → ν) (home : ι → Builtin) (t : Table ν σ)
    (v : ι → List (Rule ν σ)) : Prop where
  contents : ∀ i, t.rules? (.user (name i)) = some (v i)
  hook : ∀ i, ∃ r ∈ t.builtin (home i), r.jump = some (name i)

variable {name : ι → ν} {home : ι → Builtin} {t : Table ν σ} {v : ι → List (Rule ν σ)}

/-- Flush, delete, create and hook every chain of the family. -/
def setup (name : ι → ν) (home : ι → Builtin) (jump : ι → Rule ν σ) (is : List ι) :
    List (Command ν σ) :=
  (is.map (fun i => .flush (.user (name i))) ++ is.map (fun i => .delete (name i))) ++
    (is.map (fun i => .new (name i)) ++ is.map (fun i => .append (.builtin (home i)) (jump i)))

omit [DecidableEq ι] in
/-- What one command of a list brings about and the others keep. -/
theorem executeAll_establishes (P : Table ν σ → Prop) (cmd : ι → Command ν σ) (i : ι)
    (hdo : ∀ t, P (execute t (cmd i)))
    (hkeep : ∀ t (is : List ι), P t → P (executeAll t (is.map cmd)))
    (is : List ι) (t : Table ν σ) (hi : i ∈ is) : P (executeAll t (is.map cmd)) := by
  induction is generalizing t with
  | nil => exact absurd hi List.not_mem_nil
  | cons j is ih =>
    rw [List.map_cons, executeAll_cons]
    rcases List.mem_cons.mp hi with rfl | hr
    · exact hkeep _ is (hdo t)
    · exact ih _ hr

omit [DecidableEq ι] in
theorem flushed_blank (name : ι → ν) (is : List ι) (t : Table ν σ) (i : ι) (hi : i ∈ is) :
    Blank (executeAll t (is.map (fun i => .flush (.user (name i))))) (name i) := by
  apply executeAll_establishes (fun t => Blank t (name i)) (fun i => .flush (.user (name i))) i
  · exact fun t => blank_flush t (name i)
  · exact fun t is h => blank_executeAll _ _ _ h (by simp [Command.fills])
  · exact hi

omit [DecidableEq ι] in
theorem created_present (name : ι → ν) (is : List ι) (t : Table ν σ) (i : ι) (hi : i ∈ is) :
    Present (executeAll t (is.map (fun i => .new (name i)))) (name i) := by
  apply executeAll_establishes (fun t => Present t (name i)) (fun i => .new (name i)) i
  · exact fun t => present_new t (name i)
  · exact fun t is h => present_executeAll _ _ _ h (by simp)
  · exact hi

omit [DecidableEq ι] in
theorem appended_jump (name : ι → ν) (home : ι → Builtin) (jump : ι → Rule ν σ)
    (hj : ∀ i, (jump i).jump = some (name i)) (is : List ι) (t : Table ν σ)
    (hp : ∀ i, Present t (name i)) (i : ι) (hi : i ∈ is ∨ HasJump t (home i) (name i)) :
    HasJump (executeAll t (is.map (fun i => .append (.builtin (home i)) (jump i)))) (home i) (name i) := by
  induction is generalizing t with
  | nil => simpa using hi
  | cons j is ih =>
    apply ih
    · exact fun k => present_execute t _ _ (hp k) (by simp)
    · rcases hi with hm | hh
      · rcases List.mem_cons.mp hm with rfl | hr
        · exact Or.inr (jump_append t _ _ _ (hj i) (hp i))
        · exact Or.inl hr
      · exact Or.inr (jump_execute_append t _ _ _ _ hh)

omit [DecidableEq ι] in
/-- Whatever the table held, the family is present, hooked and empty afterwards. -/
theorem setup_hooked (name : ι → ν) (home : ι → Builtin) (jump : ι → Rule ν σ)
    (hj : ∀ i, (jump i).jump = some (name i)) (is : List ι) (hi : ∀ i, i ∈ is) (t : Table ν σ) :
    Hooked name home (executeAll t (setup name home jump is)) (fun _ => []) := by
  simp only [setup, executeAll_append]
  generalize hf : executeAll t (is.map (fun i => .flush (.user (name i)))) = tf
  generalize hd : executeAll tf (is.map (fun i => .delete (name i))) = td
  generalize hc : executeAll td (is.map (fun i => .new (name i))) = tc
  have hp : ∀ i, Present tc (name i) := fun i => hc ▸ created_present name is td i (hi i)
  constructor
  · intro i
    have hb : Blank tf (name i) := hf ▸ flushed_blank name is t i (hi i)
    have hb : Blank td (name i) := hd ▸ blank_executeAll _ _ _ hb (by simp [Command.fills])
    have hb : Blank tc (name i) := hc ▸ blank_executeAll _ _ _ hb (by simp [Command.fills])
    obtain ⟨rs, hrs⟩ := Option.isSome_iff_exists.mp
      (present_executeAll (is.map (fun i => .append (.builtin (home i)) (jump i))) tc _ (hp i) (by simp))
    rw [hrs, blank_executeAll _ _ _ hb (by simp [Command.fills]) rs hrs]
  · exact fun i => appended_jump name home jump hj is tc hp i (Or.inl (hi i))

omit [DecidableEq ι] in
theorem appended_builtin (name : ι → ν) (home : ι → Builtin) (jump : ι → Rule ν σ)
    (hj : ∀ i, (jump i).jump = some (name i)) (is : List ι) (t : Table ν σ)
    (hp : ∀ i, Present t (name i)) (b : Builtin) :
    (executeAll t (is.map (fun i => .append (.builtin (home i)) (jump i)))).builtin b =
      t.builtin b ++ (is.filter (fun i => home i = b)).map jump := by
  induction is generalizing t with
  | nil => simp
  | cons i is ih =>
    rw [List.map_cons, executeAll_cons, ih _ fun k => present_execute t _ _ (hp k) (by simp),
      builtin_append t b (home i) (name i) (jump i) (hj i) (hp i)]
    by_cases hb : home i = b
    · simp [hb]
    · simp [hb, Ne.symm hb]

omit [DecidableEq ι] in
theorem setup_builtin (name : ι → ν) (home : ι → Builtin) (jump : ι → Rule ν σ)
    (hj : ∀ i, (jump i).jump = some (name i)) (is : List ι) (hi : ∀ i, i ∈ is) (t : Table ν σ)
    (b : Builtin) :
    (executeAll t (setup name home jump is)).builtin b =
      t.builtin b ++ (is.filter (fun i => home i = b)).map jump := by
  simp only [setup, executeAll_append]
  rw [appended_builtin name home jump hj is _ fun i => created_present name is _ i (hi i)]
  rw [builtin_executeAll, builtin_executeAll, builtin_executeAll] <;>
    simp [Command.target]

theorem Hooked.setRules (hn : Function.Injective name) (h : Hooked name home t v) (i : ι)
    (rs : List (Rule ν σ)) :
    Hooked name home (t.setRules (.user (name i)) rs) (Function.update v i rs) where
  contents j := by
    by_cases hj : j = i
    · subst hj
      simp
    · have hne : (Chain.user (name j) : Chain ν) ≠ .user (name i) :=
        fun he => hj (hn (Chain.user.inj he))
      rw [setRules_other _ _ _ _ hne, h.contents, Function.update_of_ne hj]
  hook := h.hook

theorem Hooked.flush (hn : Function.Injective name) (h : Hooked name home t v) (i : ι) :
    Hooked name home (execute t (.flush (.user (name i)))) (Function.update v i []) := by
  rw [execute_flush t _ _ (h.contents i)]
  exact h.setRules hn i []

theorem Hooked.append (hn : Function.Injective name) (h : Hooked name home t v) (i : ι)
    (r : Rule ν σ) (hr : r.jump = none) :
    Hooked name home (execute t (.append (.user (name i)) r)) (Function.update v i (v i ++ [r])) := by
  rw [execute_append t _ _ r (h.contents i) (by simp [Table.admits, hr])]
  exact h.setRules hn i _

theorem Hooked.insert (hn : Function.Injective name) (h : Hooked name home t v) (i : ι)
    (r : Rule ν σ) (hr : r.jump = none) :
    Hooked name home (execute t (.insert (.user (name i)) r)) (Function.update v i (r::v i)) := by
  rw [execute_insert t _ _ r (h.contents i) (by simp [Table.admits, hr])]
  exact h.setRules hn i _

omit [DecidableEq ι] in
theorem Hooked.delete (h : Hooked name home t v) (i : ι) :
    execute t (.delete (name i)) = t := by
  obtain ⟨r, hr, hj⟩ := h.hook i
  exact execute_delete_referenced t _ (referenced_of_builtin t _ _ r hr hj)

end

end FasterConfig.NatTable
