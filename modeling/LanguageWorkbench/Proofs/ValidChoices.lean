import LanguageWorkbench.Proofs.Links

/-!
# Which bits may be absent together

The choices of a list of bits are found by forking at every option. Here they are said by
the rules alone: a dependent is absent if the bit before it is, and another bit is absent
only if it is an option behind its links. If no reading is refused, the choices that are
found have exactly these patterns.

Results:
* `Grammar.Valid`: the patterns of absent and present bits.
* `Grammar.HasSymbol`: the symbol of a bit that is present.
* `Grammar.Chosen.valid`, `Grammar.Valid.exists_chosen`: choices have valid patterns, and
  every valid pattern has a choice.
-/

namespace LanguageWorkbench.Grammar

open Shape (Plain)

/-! ## Patterns -/

/-- Links of aliases and options lead from the rule to an option. -/
inductive MayBeAbsent (g : Grammar) : RuleId → Prop
  | option {id child : RuleId} : g.shape? id = some (.option child) → MayBeAbsent g id
  | aliasOf {id child : RuleId} : g.shape? id = some (.aliasOf child) → MayBeAbsent g child →
      MayBeAbsent g id

/-- The bit may be absent, or present, after a bit that is. -/
inductive Allows (g : Grammar) (afterAbsent : Bool) : RuleId → Bool → Prop
  | present {id : RuleId} : (∀ child, g.shape? id ≠ some (.dependent child)) →
      Allows g afterAbsent id false
  | absent {id : RuleId} : (∀ child, g.shape? id ≠ some (.dependent child)) →
      g.MayBeAbsent id → Allows g afterAbsent id true
  | follows {id child : RuleId} : g.shape? id = some (.dependent child) → afterAbsent = true →
      Allows g afterAbsent id true
  | dependent {id child : RuleId} {absent : Bool} : g.shape? id = some (.dependent child) →
      afterAbsent = false → Allows g afterAbsent child absent → Allows g afterAbsent id absent

/-- For each bit of a list, whether it is absent. -/
inductive Valid (g : Grammar) : Bool → List RuleId → List Bool → Prop
  | nil {afterAbsent : Bool} : Valid g afterAbsent [] []
  | cons {afterAbsent absent : Bool} {bit : RuleId} {bits : List RuleId} {rest : List Bool} :
      g.Allows afterAbsent bit absent → Valid g absent bits rest →
      Valid g afterAbsent (bit :: bits) (absent :: rest)

/-- The bits that are present. -/
def presentBits (bits : List RuleId) (absent : List Bool) : List RuleId :=
  ((bits.zip absent).filter fun b => !b.2).map Prod.fst

/-- The second rule has a symbol, and links lead to it from the first. -/
inductive Behind (g : Grammar) : RuleId → RuleId → Prop
  | self {id : RuleId} {rule : Rule} : g.rule? id = some rule →
      rule.shape.isTerm = true ∨ hasNonterminal rule.shape = true → Behind g id id
  | follow {id child y : RuleId} : g.Follows id child → Behind g child y → Behind g id y

/-- The symbol of a bit is that of the rule behind it. -/
def HasSymbol (g : Grammar) (l : Lowered) (id : RuleId) (s : Symbol) : Prop :=
  ∃ y, g.Behind id y ∧ l.symbol? (g.nameOf y) = some s

variable {g : Grammar} {symbols : SymbolMap} {l : Lowered} {text : String}
variable {afterAbsent absent : Bool} {id : RuleId} {bits : List RuleId}

@[simp] theorem presentBits_nil (absent : List Bool) : presentBits [] absent = [] := rfl

@[simp] theorem presentBits_absent (bit : RuleId) (bits : List RuleId) (absent : List Bool) :
    presentBits (bit :: bits) (true :: absent) = presentBits bits absent := rfl

@[simp] theorem presentBits_present (bit : RuleId) (bits : List RuleId) (absent : List Bool) :
    presentBits (bit :: bits) (false :: absent) = bit :: presentBits bits absent := rfl

/-! ## Links -/

theorem Follows.unique {child child' : RuleId} (h : g.Follows id child)
    (h' : g.Follows id child') : child = child' := by
  rcases h with (h | h) | h <;> rcases h' with (h' | h') | h' <;> cases h.symm.trans h' <;> rfl

/-- A rule with a symbol links to no other. -/
theorem Follows.not_hasKind {child : RuleId} (h : g.Follows id child) {rule : Rule}
    (hrule : g.rule? id = some rule) :
    ¬ (rule.shape.isTerm = true ∨ hasNonterminal rule.shape = true) := by
  have hshape : g.shape? id = some rule.shape := by simp [shape?, hrule]
  rintro (hkind | hkind) <;> rcases h with (h | h) | h <;>
  · rw [← Option.some.inj (h.symm.trans hshape)] at hkind
    cases hkind

/-- There is one rule behind a bit. -/
theorem Behind.unique {y y' : RuleId} (h : g.Behind id y) (h' : g.Behind id y') : y = y' := by
  induction h with
  | self hrule hkind =>
    cases h' with
    | self _ _ => rfl
    | follow hlink _ => exact absurd hkind (hlink.not_hasKind hrule)
  | follow hlink _ ih =>
    cases h' with
    | self hrule hkind => exact absurd hkind (hlink.not_hasKind hrule)
    | follow hlink' h' => exact ih (hlink.unique hlink' ▸ h')

/-- Nothing is behind the line of an alternative, which has no symbol of its own. -/
theorem Behind.not_line {y : RuleId} (h : g.Behind id y) (bits : List RuleId) :
    g.shape? id ≠ some (.sequence bits true) := by
  intro hline
  cases h with
  | self hrule hkind =>
    rw [shape?, hrule, Option.map_some, Option.some.injEq] at hline
    rw [hline] at hkind
    rcases hkind with hkind | hkind <;> cases hkind
  | follow hlink _ => rcases hlink with (hlink | hlink) | hlink <;> cases hline.symm.trans hlink

/-- Behind a rule with a symbol is the rule itself. -/
theorem Numbers.behind_self (hn : g.Numbers l symbols) {s : Symbol}
    (hs : symbols.lookup id = some s) : g.Behind id id := by
  obtain ⟨rule, hrule, -, ⟨hterm, -⟩ | ⟨hnonterminal, -⟩⟩ := hn.of_lookup hs
  · exact .self hrule (.inl hterm)
  · exact .self hrule (.inr hnonterminal)

/-! ## Readings follow the patterns -/

theorem not_dependent_of_plain (h : Plain g.shape? id) (child : RuleId) :
    g.shape? id ≠ some (.dependent child) := by
  obtain ⟨shape, hshape, hno⟩ := h
  rw [hshape]
  exact fun heq => hno child (Option.some.inj heq)

/-- What is no dependent is absent only if it may be. -/
theorem Allows.mayBeAbsent (h : g.Allows afterAbsent id true)
    (hno : ∀ child, g.shape? id ≠ some (.dependent child)) : g.MayBeAbsent id := by
  cases h with
  | absent _ hmay => exact hmay
  | follows hshape _ => exact absurd hshape (hno _)
  | dependent hshape _ _ => exact absurd hshape (hno _)

theorem Reads.allows (hload : load text = .ok g) {r : Option Symbol}
    (h : Reads g symbols afterAbsent id r) : g.Allows afterAbsent id r.isNone := by
  -- what no dependent is may be there, and absent if a link to it may
  have hlink : ∀ {id : RuleId} {shape : Shape} {r : Option Symbol}, g.shape? id = some shape →
      (∀ child, shape ≠ .dependent child) → (r = none → g.MayBeAbsent id) →
      g.Allows afterAbsent id r.isNone := by
    intro id shape r hshape hdep hmay
    have hno : ∀ child, g.shape? id ≠ some (.dependent child) := by
      intro child heq
      exact hdep child (Option.some.inj (hshape.symm.trans heq))
    cases r with
    | none => exact .absent hno (hmay rfl)
    | some s => exact .present hno
  induction h with
  | @rule id s rule hrule hkind _ =>
    refine hlink (show g.shape? id = some rule.shape by simp [shape?, hrule]) ?_ (by simp)
    intro child heq
    rw [heq] at hkind
    rcases hkind with hkind | hkind <;> cases hkind
  | @aliasOf id child r hshape _ ih =>
    refine hlink hshape (by simp) ?_
    rintro rfl
    have hplain := plain_of_load hload hshape (by simp) (List.mem_singleton_self _)
    exact .aliasOf hshape (ih.mayBeAbsent (not_dependent_of_plain hplain))
  | leftOut hshape => exact hlink (r := none) hshape (by simp) fun _ => .option hshape
  | option hshape _ _ => exact hlink hshape (by simp) fun _ => .option hshape
  | absent hshape hafter => exact .follows hshape hafter
  | dependent hshape hafter _ ih => exact .dependent hshape hafter ih

theorem Reads.exists_behind {s : Symbol} (h : Reads g symbols afterAbsent id (some s)) :
    ∃ y, g.Behind id y ∧ symbols.lookup y = some s := by
  generalize hr : some s = r at h
  induction h with
  | rule hrule hkind hs => exact ⟨_, .self hrule hkind, hs⟩
  | aliasOf hshape _ ih =>
    obtain ⟨y, hy, hs⟩ := ih hr
    exact ⟨y, .follow (.inl (.inl hshape)) hy, hs⟩
  | option hshape _ ih =>
    obtain ⟨y, hy, hs⟩ := ih hr
    exact ⟨y, .follow (.inl (.inr hshape)) hy, hs⟩
  | dependent hshape _ _ ih =>
    obtain ⟨y, hy, hs⟩ := ih hr
    exact ⟨y, .follow (.inr hshape) hy, hs⟩
  | leftOut _ => cases hr
  | absent _ _ => cases hr

theorem Reads.hasSymbol (hn : g.Numbers l symbols) {s : Symbol}
    (h : Reads g symbols afterAbsent id (some s)) : g.HasSymbol l id s := by
  obtain ⟨y, hy, hs⟩ := h.exists_behind
  exact ⟨y, hy, hn.symbol?_nameOf hs⟩

/-! ## Patterns have readings -/

theorem MayBeAbsent.reads (h : g.MayBeAbsent id) : Reads g symbols afterAbsent id none := by
  induction h with
  | option hshape => exact .leftOut hshape
  | aliasOf hshape _ ih => exact .aliasOf hshape ih

/-- If no reading is refused, what is no dependent can be read as a symbol. -/
theorem exists_reads_some (hload : load text = .ok g) {fuel : Nat}
    (hno : ∀ f, .refused f ∉ g.readings symbols afterAbsent fuel id)
    (hplain : ∀ child, g.shape? id ≠ some (.dependent child)) :
    ∃ s, Reads g symbols afterAbsent id (some s) := by
  have hchild : ∀ {id child : RuleId} {shape : Shape}, g.shape? id = some shape →
      (∀ bits anonymous, shape ≠ .sequence bits anonymous) → child ∈ shape.children →
      ∀ c, g.shape? child ≠ some (.dependent c) := fun hshape hseq hmem =>
    not_dependent_of_plain (plain_of_load hload hshape hseq hmem)
  induction fuel generalizing id with
  | zero => exact absurd (List.mem_singleton.2 rfl) (hno _)
  | succ fuel ih =>
    unfold readings at hno
    split at hno
    · exact absurd (List.mem_singleton.2 rfl) (hno _)
    · rename_i child hshape
      obtain ⟨s, hs⟩ := ih hno (hchild hshape (by simp) (List.mem_singleton_self _))
      exact ⟨s, .aliasOf hshape hs⟩
    · rename_i child hshape
      obtain ⟨s, hs⟩ := ih (fun f hf => hno f (List.mem_cons_of_mem _ hf))
        (hchild hshape (by simp) (List.mem_singleton_self _))
      exact ⟨s, .option hshape hs⟩
    · rename_i child hshape
      exact absurd hshape (hplain child)
    · exact absurd (List.mem_singleton.2 rfl) (hno _)
    · exact absurd (List.mem_singleton.2 rfl) (hno _)
    · exact absurd (List.mem_singleton.2 rfl) (hno _)
    all_goals
      rename_i hshape
      obtain ⟨rule, hrule, hr⟩ := Option.map_eq_some_iff.1 hshape
      cases hs : symbols.lookup id with
      | none =>
        exact absurd (by rw [hs]; exact List.mem_singleton.2 rfl) (hno (.fault .missingEntry))
      | some s =>
        exact ⟨s, .rule hrule (by rw [hr]; first | exact .inl rfl | exact .inr rfl) hs⟩

theorem Allows.exists_reads (hload : load text = .ok g) (h : g.Allows afterAbsent id absent)
    {fuel : Nat} (hno : ∀ f, .refused f ∉ g.readings symbols afterAbsent fuel id) :
    ∃ r, Reads g symbols afterAbsent id r ∧ r.isNone = absent := by
  induction h generalizing fuel with
  | present hplain =>
    obtain ⟨s, hs⟩ := exists_reads_some hload hno hplain
    exact ⟨some s, hs, rfl⟩
  | absent _ hmay => exact ⟨none, hmay.reads, rfl⟩
  | follows hshape hafter => exact ⟨none, .absent hshape hafter, rfl⟩
  | dependent hshape hafter _ ih =>
    obtain ⟨fuel, rfl⟩ := exists_fuel hno
    simp only [readings, hshape, hafter, Bool.false_eq_true, if_false] at hno
    simp only [hafter] at ih
    obtain ⟨r, hr, hnone⟩ := ih hno
    exact ⟨r, .dependent hshape hafter (by rwa [hafter]), hnone⟩

/-! ## Choices and patterns -/

/-- The pattern of a choice is valid, and the symbols are those of the bits that are present. -/
theorem Chosen.valid (hload : load text = .ok g) (hn : g.Numbers l symbols)
    {choice : List (Option Symbol)} (h : Chosen g symbols afterAbsent bits choice) :
    g.Valid afterAbsent bits (choice.map Option.isNone) ∧
      List.Forall₂ (g.HasSymbol l) (presentBits bits (choice.map Option.isNone))
        (presentSymbols choice) := by
  induction h with
  | nil => exact ⟨.nil, .nil⟩
  | @cons _ _ _ r _ hr _ ih =>
    refine ⟨.cons (hr.allows hload) ih.1, ?_⟩
    cases r with
    | none => exact ih.2
    | some s => exact .cons (hr.hasSymbol hn) ih.2

/-- If there are choices at all, there is one of each valid pattern. -/
theorem Valid.exists_chosen (hload : load text = .ok g) {pattern : List Bool}
    (h : g.Valid afterAbsent bits pattern) {found : List (List (Option Symbol))}
    (hfound : g.choices symbols afterAbsent bits = .ok found) :
    ∃ choice, Chosen g symbols afterAbsent bits choice ∧ choice.map Option.isNone = pattern := by
  induction h generalizing found with
  | nil => exact ⟨[], .nil, rfl⟩
  | cons hbit _ ih =>
    obtain ⟨r, hr, rfl⟩ := hbit.exists_reads hload (not_refused_of_choices hfound)
    obtain ⟨rest, hrest, -⟩ := exists_choices_of_reads hfound hr
    obtain ⟨choice, hchoice, rfl⟩ := ih hrest
    exact ⟨r :: choice, .cons hr hchoice, rfl⟩

end LanguageWorkbench.Grammar
