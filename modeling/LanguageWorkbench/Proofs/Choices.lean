import LanguageWorkbench.Proofs.Numbering

/-!
# The choices of a list of bits

`Grammar.readings` follows options, aliases and dependents with fuel, and
`Grammar.choices` forks over the readings of one bit after another. The relations here
say the same without fuel and for one choice at a time.

Results:
* `Grammar.mem_choices_iff`: the choices are the lists that `Grammar.Chosen` relates.
* `Grammar.Chosen.lookup`: the symbols of a choice are symbols of rules.
-/

namespace LanguageWorkbench.Grammar

/-- One way to read a bit: as nothing, or as the symbol of the rule behind it. -/
inductive Reads (g : Grammar) (symbols : SymbolMap) (afterAbsent : Bool) :
    RuleId → Option Symbol → Prop
  | rule {id : RuleId} {s : Symbol} {rule : Rule} : g.rule? id = some rule →
      rule.shape.isTerm = true ∨ hasNonterminal rule.shape = true →
      symbols.lookup id = some s → Reads g symbols afterAbsent id (some s)
  | aliasOf {id child : RuleId} {r : Option Symbol} : g.shape? id = some (.aliasOf child) →
      Reads g symbols afterAbsent child r → Reads g symbols afterAbsent id r
  | leftOut {id child : RuleId} : g.shape? id = some (.option child) →
      Reads g symbols afterAbsent id none
  | option {id child : RuleId} {r : Option Symbol} : g.shape? id = some (.option child) →
      Reads g symbols afterAbsent child r → Reads g symbols afterAbsent id r
  | absent {id child : RuleId} : g.shape? id = some (.dependent child) → afterAbsent = true →
      Reads g symbols afterAbsent id none
  | dependent {id child : RuleId} {r : Option Symbol} : g.shape? id = some (.dependent child) →
      afterAbsent = false → Reads g symbols afterAbsent child r → Reads g symbols afterAbsent id r

/-- One way to read a list of bits. -/
inductive Chosen (g : Grammar) (symbols : SymbolMap) :
    Bool → List RuleId → List (Option Symbol) → Prop
  | nil {afterAbsent : Bool} : Chosen g symbols afterAbsent [] []
  | cons {afterAbsent : Bool} {bit : RuleId} {bits : List RuleId} {r : Option Symbol}
      {choice : List (Option Symbol)} : Reads g symbols afterAbsent bit r →
      Chosen g symbols r.isNone bits choice → Chosen g symbols afterAbsent (bit :: bits) (r :: choice)

/-- The reading that a choice has at a place. -/
def readingOf : Option Symbol → Reading
  | none => .absent
  | some s => .present s

variable {g : Grammar} {symbols : SymbolMap} {afterAbsent : Bool}

/-! ## Readings -/

theorem reads_of_mem_readings : ∀ {fuel : Nat} {id : RuleId} {r : Option Symbol},
    readingOf r ∈ g.readings symbols afterAbsent fuel id → Reads g symbols afterAbsent id r
  | 0, id, r, h => by
    cases r <;> simp [readings, readingOf] at h
  | fuel + 1, id, r, h => by
    unfold readings at h
    split at h
    · cases r <;> simp [readingOf] at h
    · rename_i child hshape
      exact .aliasOf hshape (reads_of_mem_readings h)
    · rename_i child hshape
      rcases List.mem_cons.1 h with h | h
      · cases r with
        | none => exact .leftOut hshape
        | some s => cases h
      · exact .option hshape (reads_of_mem_readings h)
    · rename_i child hshape
      split_ifs at h with hafter
      · cases r with
        | none => exact .absent hshape hafter
        | some s => simp [readingOf] at h
      · exact .dependent hshape (by simpa using hafter) (reads_of_mem_readings h)
    · cases r <;> simp [readingOf] at h
    · cases r <;> simp [readingOf] at h
    · cases r <;> simp [readingOf] at h
    all_goals
      rename_i hshape
      obtain ⟨rule, hrule, hr⟩ := Option.map_eq_some_iff.1 hshape
      cases hs : symbols.lookup id with
      | none => cases r <;> simp [hs, readingOf] at h
      | some s =>
        cases r with
        | none => simp [hs, readingOf] at h
        | some s' =>
          rw [hs] at h
          cases List.mem_singleton.1 h
          exact .rule hrule (by rw [hr]; first | exact .inl rfl | exact .inr rfl) hs

theorem exists_fuel {fuel : Nat} {id : RuleId}
    (hno : ∀ f, .refused f ∉ g.readings symbols afterAbsent fuel id) : ∃ n, fuel = n + 1 := by
  cases fuel with
  | zero => exact absurd (List.mem_singleton.2 rfl) (hno _)
  | succ n => exact ⟨n, rfl⟩

theorem mem_readings_of_reads {id : RuleId} {r : Option Symbol}
    (h : Reads g symbols afterAbsent id r) : ∀ {fuel : Nat},
    (∀ f, .refused f ∉ g.readings symbols afterAbsent fuel id) →
    readingOf r ∈ g.readings symbols afterAbsent fuel id := by
  induction h with
  | @rule id s rule hrule hkind hs =>
    intro fuel hno
    obtain ⟨fuel, rfl⟩ := exists_fuel hno
    have hshape : g.shape? id = some rule.shape := by simp [shape?, hrule]
    unfold readings
    rw [hshape]
    cases hr : rule.shape with
    | sequence bits anonymous =>
      cases anonymous <;> simp_all [hasNonterminal, Shape.isTerm, readingOf]
    | _ => simp_all [hasNonterminal, Shape.isTerm, readingOf]
  | aliasOf hshape _ ih =>
    intro fuel hno
    obtain ⟨fuel, rfl⟩ := exists_fuel hno
    simp only [readings, hshape] at hno ⊢
    exact ih hno
  | leftOut hshape =>
    intro fuel hno
    obtain ⟨fuel, rfl⟩ := exists_fuel hno
    simp only [readings, hshape]
    exact List.mem_cons_self ..
  | option hshape _ ih =>
    intro fuel hno
    obtain ⟨fuel, rfl⟩ := exists_fuel hno
    simp only [readings, hshape] at hno ⊢
    exact List.mem_cons_of_mem _ (ih fun f hf => hno f (List.mem_cons_of_mem _ hf))
  | absent hshape hafter =>
    intro fuel hno
    obtain ⟨fuel, rfl⟩ := exists_fuel hno
    simp only [readings, hshape, hafter, if_true]
    exact List.mem_singleton.2 rfl
  | dependent hshape hafter _ ih =>
    intro fuel hno
    obtain ⟨fuel, rfl⟩ := exists_fuel hno
    simp only [readings, hshape, hafter, Bool.false_eq_true, if_false] at hno ⊢
    simp only [hafter] at ih
    exact ih hno

/-- A rule with a symbol of its own is read as that symbol. -/
theorem Reads.exists_symbol {id : RuleId} {r : Option Symbol}
    (h : Reads g symbols afterAbsent id r) {rule : Rule} (hrule : g.rule? id = some rule)
    (hkind : rule.shape.isTerm = true ∨ hasNonterminal rule.shape = true) :
    ∃ s, r = some s ∧ symbols.lookup id = some s := by
  have hother : ∀ {shape : Shape}, g.shape? id = some shape →
      shape.isTerm = true ∨ hasNonterminal shape = true := by
    intro shape hshape
    obtain ⟨rule', hrule', rfl⟩ := Option.map_eq_some_iff.1 hshape
    obtain rfl := Option.some.inj (hrule.symm.trans hrule')
    exact hkind
  cases h with
  | rule _ _ hs => exact ⟨_, rfl, hs⟩
  | aliasOf hshape _ => rcases hother hshape with h | h <;> cases h
  | leftOut hshape => rcases hother hshape with h | h <;> cases h
  | option hshape _ => rcases hother hshape with h | h <;> cases h
  | absent hshape _ => rcases hother hshape with h | h <;> cases h
  | dependent hshape _ _ => rcases hother hshape with h | h <;> cases h

/-! ## Choices -/

/-- Each reading of the first bit has one branch: the choices of the others after it. -/
theorem choices_cons {bit : RuleId} {bits : List RuleId} {found : List (List (Option Symbol))}
    (h : g.choices symbols afterAbsent (bit :: bits) = .ok found) :
    ∃ branches, found = branches.flatten ∧ List.Forall₂ (fun reading branch =>
      ∃ r rest, reading = readingOf r ∧ g.choices symbols r.isNone bits = .ok rest ∧
        branch = rest.map (r :: ·)) (g.readings symbols afterAbsent (g.size + 1) bit) branches := by
  obtain ⟨branches, hb, h⟩ := bind_eq_ok_iff.1 h
  cases h
  refine ⟨branches, rfl, (mapM_eq_ok_iff.1 hb).imp fun reading branch hr => ?_⟩
  cases reading with
  | absent =>
    obtain ⟨rest, hrest, hr⟩ := bind_eq_ok_iff.1 hr
    cases hr
    exact ⟨none, rest, rfl, hrest, rfl⟩
  | present s =>
    obtain ⟨rest, hrest, hr⟩ := bind_eq_ok_iff.1 hr
    cases hr
    exact ⟨some s, rest, rfl, hrest, rfl⟩
  | refused f => cases hr

theorem not_refused_of_choices {bit : RuleId} {bits : List RuleId}
    {found : List (List (Option Symbol))}
    (h : g.choices symbols afterAbsent (bit :: bits) = .ok found) (f : Failure) :
    .refused f ∉ g.readings symbols afterAbsent (g.size + 1) bit := by
  intro hf
  obtain ⟨branches, -, hb⟩ := choices_cons h
  obtain ⟨_, -, r, -, hr, -⟩ := exists_of_forall₂ hb hf
  cases r <;> cases hr

theorem exists_choices_of_reads {bit : RuleId} {bits : List RuleId}
    {found : List (List (Option Symbol))} {r : Option Symbol}
    (h : g.choices symbols afterAbsent (bit :: bits) = .ok found)
    (hr : Reads g symbols afterAbsent bit r) :
    ∃ rest, g.choices symbols r.isNone bits = .ok rest ∧ ∀ tail ∈ rest, r :: tail ∈ found := by
  obtain ⟨branches, rfl, hb⟩ := choices_cons h
  obtain ⟨_, hbranch, r', rest, hr', hrest, rfl⟩ :=
    exists_of_forall₂ hb (mem_readings_of_reads hr (not_refused_of_choices h))
  obtain rfl : r' = r := by cases r <;> cases r' <;> simp_all [readingOf]
  exact ⟨rest, hrest, fun tail htail =>
    List.mem_flatten.2 ⟨_, hbranch, List.mem_map.2 ⟨tail, htail, rfl⟩⟩⟩

/-- If there are choices at all, they are the lists that are chosen. -/
theorem mem_choices_iff {bits : List RuleId} {found : List (List (Option Symbol))}
    (h : g.choices symbols afterAbsent bits = .ok found) {choice : List (Option Symbol)} :
    choice ∈ found ↔ Chosen g symbols afterAbsent bits choice := by
  induction bits generalizing afterAbsent found choice with
  | nil =>
    cases h
    rw [List.mem_singleton]
    constructor
    · rintro rfl; exact .nil
    · intro hc; cases hc; rfl
  | cons bit bits ih =>
    constructor
    · intro hc
      obtain ⟨branches, rfl, hb⟩ := choices_cons h
      obtain ⟨branch, hbranch, hc⟩ := List.mem_flatten.1 hc
      obtain ⟨_, hreading, r, rest, rfl, hrest, rfl⟩ := exists_of_forall₂ hb.flip hbranch
      obtain ⟨tail, htail, rfl⟩ := List.mem_map.1 hc
      exact .cons (reads_of_mem_readings hreading) ((ih hrest).1 htail)
    · intro hc
      cases hc with
      | cons hr htail =>
        obtain ⟨rest, hrest, hmem⟩ := exists_choices_of_reads h hr
        exact hmem _ ((ih hrest).2 htail)

@[simp] theorem presentSymbols_nil : presentSymbols [] = [] := rfl

@[simp] theorem presentSymbols_none (choice : List (Option Symbol)) :
    presentSymbols (none :: choice) = presentSymbols choice := rfl

@[simp] theorem presentSymbols_some (s : Symbol) (choice : List (Option Symbol)) :
    presentSymbols (some s :: choice) = s :: presentSymbols choice := rfl

theorem Reads.lookup {id : RuleId} {s : Symbol} (h : Reads g symbols afterAbsent id (some s)) :
    ∃ rule, symbols.lookup rule = some s := by
  generalize hr : some s = r at h
  induction h with
  | rule _ _ hs => exact ⟨_, by cases hr; exact hs⟩
  | aliasOf _ _ ih => exact ih hr
  | option _ _ ih => exact ih hr
  | dependent _ _ _ ih => exact ih hr
  | leftOut _ => cases hr
  | absent _ _ => cases hr

theorem Chosen.lookup {bits : List RuleId} {choice : List (Option Symbol)}
    (h : Chosen g symbols afterAbsent bits choice) {s : Symbol} (hs : s ∈ presentSymbols choice) :
    ∃ rule, symbols.lookup rule = some s := by
  induction h with
  | nil => cases hs
  | @cons _ _ _ r choice hr _ ih =>
    cases r with
    | none => exact ih hs
    | some s' =>
      rw [presentSymbols_some, List.mem_cons] at hs
      rcases hs with rfl | hs
      · exact hr.lookup
      · exact ih hs

end LanguageWorkbench.Grammar
