import LanguageWorkbench.Proofs.Choices

/-!
# What rules match

The language of a rule by the rules alone: a bit of a sequence that is an option, directly
or through aliases, may be left out, and a dependent bit is left out whenever the bit
before it is. Words are lists of names of terms.

Results:
* `Grammar.Matches`: the words that a rule matches.
* `Grammar.MatchesBits.snoc`: one more bit makes a list longer.
* `Grammar.StripsTo`, `Grammar.stripsTo_of_startRule`: the start rule behind aliases and
  options.
-/

namespace LanguageWorkbench.Grammar

/-! ## Matching -/

mutual

/-- The words that a rule matches. -/
inductive Matches (g : Grammar) : RuleId → List String → Prop
  | term {id : RuleId} {kind : TermKind} {pattern : Option String} :
      g.shape? id = some (.term kind pattern) → Matches g id [g.nameOf id]
  | sequence {id : RuleId} {bits : List RuleId} {anonymous : Bool} {w : List String} :
      g.shape? id = some (.sequence bits anonymous) → MatchesBits g false bits w → Matches g id w
  | alternative {id bit : RuleId} {bits : List RuleId} {w : List String} :
      g.shape? id = some (.alternative bits) → bit ∈ bits → Matches g bit w → Matches g id w
  | aliasOf {id child : RuleId} {w : List String} :
      g.shape? id = some (.aliasOf child) → Matches g child w → Matches g id w
  | plus {id child : RuleId} {n : Nat} {w : List String} : g.shape? id = some (.plus child) →
      MatchesBits g false (List.replicate (n + 1) child) w → Matches g id w

/-- The words that a bit of a sequence matches. The first flag says whether the bit
    before it is left out, the second whether the bit itself is. -/
inductive MatchesBit (g : Grammar) : Bool → RuleId → Bool → List String → Prop
  | leftOut {afterAbsent : Bool} {id child : RuleId} : g.shape? id = some (.option child) →
      MatchesBit g afterAbsent id true []
  | option {afterAbsent absent : Bool} {id child : RuleId} {w : List String} :
      g.shape? id = some (.option child) → MatchesBit g afterAbsent child absent w →
      MatchesBit g afterAbsent id absent w
  | absent {id child : RuleId} : g.shape? id = some (.dependent child) →
      MatchesBit g true id true []
  | dependent {absent : Bool} {id child : RuleId} {w : List String} :
      g.shape? id = some (.dependent child) → MatchesBit g false child absent w →
      MatchesBit g false id absent w
  | aliasOf {afterAbsent absent : Bool} {id child : RuleId} {w : List String} :
      g.shape? id = some (.aliasOf child) → MatchesBit g afterAbsent child absent w →
      MatchesBit g afterAbsent id absent w
  | rule {afterAbsent : Bool} {id : RuleId} {w : List String} :
      Matches g id w → MatchesBit g afterAbsent id false w

/-- The words that bits one after the other match. -/
inductive MatchesBits (g : Grammar) : Bool → List RuleId → List String → Prop
  | nil {afterAbsent : Bool} : MatchesBits g afterAbsent [] []
  | cons {afterAbsent absent : Bool} {bit : RuleId} {bits : List RuleId} {u v : List String} :
      MatchesBit g afterAbsent bit absent u → MatchesBits g absent bits v →
      MatchesBits g afterAbsent (bit :: bits) (u ++ v)

end

variable {g : Grammar} {afterAbsent absent : Bool} {id child : RuleId} {u v w : List String}

/-! ## Bits -/

/-- A bit that is left out matches nothing. -/
theorem MatchesBit.eq_nil : ∀ {afterAbsent absent : Bool} {id : RuleId} {w : List String},
    MatchesBit g afterAbsent id absent w → absent = true → w = []
  | _, _, _, _, .leftOut _, _ => rfl
  | _, _, _, _, .option _ h, habsent => h.eq_nil habsent
  | _, _, _, _, .absent _, _ => rfl
  | _, _, _, _, .dependent _ h, habsent => h.eq_nil habsent
  | _, _, _, _, .aliasOf _ h, habsent => h.eq_nil habsent
  | _, _, _, _, .rule _, habsent => Bool.noConfusion habsent

/-- What a bit matches after one that is left out, it matches in any place. -/
theorem MatchesBit.anywhere : ∀ {afterAbsent absent : Bool} {id : RuleId} {w : List String},
    MatchesBit g afterAbsent id absent w → absent = false → MatchesBit g false id absent w
  | _, _, _, _, .leftOut _, habsent => Bool.noConfusion habsent
  | _, _, _, _, .option hshape h, habsent => .option hshape (h.anywhere habsent)
  | _, _, _, _, .absent _, habsent => Bool.noConfusion habsent
  | _, _, _, _, .dependent hshape h, _ => .dependent hshape h
  | _, _, _, _, .aliasOf hshape h, habsent => .aliasOf hshape (h.anywhere habsent)
  | _, _, _, _, .rule h, _ => .rule h

/-! ## Lists -/

theorem MatchesBits.of_present {us : List (List String)}
    (h : ∀ u ∈ us, MatchesBit g false child false u) :
    MatchesBits g false (List.replicate us.length child) us.flatten := by
  induction us with
  | nil => exact .nil
  | cons u us ih =>
    obtain ⟨hu, hus⟩ := List.forall_mem_cons.1 h
    exact .cons hu (ih hus)

/-- Bits that are left out of a list might as well not be there. -/
theorem MatchesBits.exists_present {n : Nat}
    (h : MatchesBits g afterAbsent (List.replicate n child) w) :
    ∃ us : List (List String), (∀ u ∈ us, MatchesBit g false child false u) ∧ us.flatten = w := by
  induction n generalizing afterAbsent w with
  | zero =>
    cases h
    exact ⟨[], by simp, rfl⟩
  | succ n ih =>
    cases h with
    | @cons _ absent _ _ u v hbit hbits =>
      obtain ⟨us, hus, rfl⟩ := ih hbits
      cases absent with
      | true => exact ⟨us, hus, by rw [hbit.eq_nil rfl, List.nil_append]⟩
      | false => exact ⟨u :: us, List.forall_mem_cons.2 ⟨hbit.anywhere rfl, hus⟩, rfl⟩

/-- One more bit makes a list longer, unless it is left out. -/
theorem MatchesBits.snoc {n : Nat} (h : MatchesBits g false (List.replicate (n + 1) child) u)
    (hbit : MatchesBit g false child absent v) :
    ∃ m, MatchesBits g false (List.replicate (m + 1) child) (u ++ v) := by
  cases absent with
  | true => exact ⟨n, by rwa [hbit.eq_nil rfl, List.append_nil]⟩
  | false =>
    obtain ⟨us, hus, rfl⟩ := h.exists_present
    have hall : ∀ x ∈ us ++ [v], MatchesBit g false child false x := by
      intro x hx
      rcases List.mem_append.1 hx with hx | hx
      · exact hus x hx
      · exact List.mem_singleton.1 hx ▸ hbit
    have := MatchesBits.of_present hall
    rw [List.length_append, List.flatten_append] at this
    exact ⟨us.length, by simpa using this⟩

theorem Matches.exists_bits (h : g.Matches id w) (hshape : g.shape? id = some (.plus child)) :
    ∃ n, MatchesBits g false (List.replicate (n + 1) child) w := by
  cases h with
  | plus hshape' hbits =>
    obtain rfl := Shape.plus.inj (Option.some.inj (hshape.symm.trans hshape'))
    exact ⟨_, hbits⟩
  | term hshape' => rw [hshape] at hshape'; cases hshape'
  | sequence hshape' _ => rw [hshape] at hshape'; cases hshape'
  | alternative hshape' _ _ => rw [hshape] at hshape'; cases hshape'
  | aliasOf hshape' _ => rw [hshape] at hshape'; cases hshape'

/-! ## The start rule -/

/-- The second rule is the first without aliases and outer options. -/
inductive StripsTo (g : Grammar) : RuleId → RuleId → Prop
  | refl {id : RuleId} : (∀ child, g.shape? id ≠ some (.aliasOf child)) →
      (∀ child, g.shape? id ≠ some (.option child)) → StripsTo g id id
  | aliasOf {id child y : RuleId} : g.shape? id = some (.aliasOf child) →
      StripsTo g child y → StripsTo g id y
  | option {id child y : RuleId} : g.shape? id = some (.option child) →
      StripsTo g child y → StripsTo g id y

theorem stripsTo_of_startRule {fuel : Nat} {y : RuleId}
    (h : (g.startRule fuel id).result = .ok y) : g.StripsTo id y := by
  induction fuel generalizing id with
  | zero => cases h
  | succ fuel ih =>
    unfold startRule at h
    split at h
    · rename_i child hshape
      exact .aliasOf hshape (ih h)
    · rename_i child hshape
      obtain ⟨_, -, h⟩ := Noted.result_bind_eq_ok_iff.1 h
      exact .option hshape (ih h)
    · rename_i halias hoption
      cases h
      exact .refl halias hoption

end LanguageWorkbench.Grammar
