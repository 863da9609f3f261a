import LanguageWorkbench.Grammar.Analysis
import LanguageWorkbench.Proofs.Inference
import LanguageWorkbench.Proofs.Preservation
import LanguageWorkbench.Proofs.ValidChoices

/-!
# Rules that match the empty text

Whether a rule matches the empty text is asked for along paths, so the rules that are found
are the least set that is closed under the step from children to rules. These are the rules
that match the empty word.

Results:
* `Grammar.isNullable_induction`: what the step keeps holds of the rules that are found.
* `Grammar.isNullable_of_step`: the rules that are found are closed under the step.
* `Grammar.isNullable_iff_matches`: they are the rules that match the empty word.
-/

namespace LanguageWorkbench.Grammar

open Shape (Attached)

variable {g : Grammar} {id x : RuleId} {known known' : RuleId → Bool}

/-! ## The step -/

theorem isNullableBy_mono (h : ∀ x, known x = true → known' x = true)
    (hid : g.isNullableBy known id = true) : g.isNullableBy known' id = true := by
  unfold isNullableBy at hid ⊢
  generalize g.shape? id = shape? at hid ⊢
  cases shape? with
  | none => exact hid
  | some shape =>
    cases shape with
    | sequence bits anonymous =>
      simp only [List.all_eq_true, Bool.or_eq_true] at hid ⊢
      exact fun bit hbit => (hid bit hbit).imp_right (h bit)
    | alternative bits =>
      obtain ⟨bit, hbit, hknown⟩ := List.any_eq_true.1 hid
      exact List.any_eq_true.2 ⟨bit, hbit, h bit hknown⟩
    | aliasOf child | plus child | delimiter child => exact h child hid
    | term kind pattern | option child | dependent child | separator child => exact hid

theorem lt_size_of_isNullableBy (h : g.isNullableBy known id = true) : id < g.size := by
  unfold isNullableBy at h
  cases hshape : g.shape? id with
  | none =>
    rw [hshape] at h
    cases h
  | some shape =>
    obtain ⟨rule, hrule, -⟩ := Option.map_eq_some_iff.1 hshape
    exact (Array.getElem?_eq_some_iff.1 hrule).1

/-! ## The least closed set -/

/-- Rules are asked for along paths as any property is that a step infers. -/
theorem isNullableVia_eq (g : Grammar) (fuel : Nat) (path : List RuleId) (id : RuleId) :
    g.isNullableVia fuel path id = inferredVia g.isNullableBy fuel path id := by
  induction fuel generalizing path id with
  | zero => rfl
  | succ fuel ih => rw [isNullableVia, inferredVia, funext (ih (id :: path))]

theorem isNullable_eq (g : Grammar) : g.isNullable = inferredVia g.isNullableBy (g.size + 1) [] :=
  funext fun id => isNullableVia_eq g (g.size + 1) [] id

/-- What the step from children to rules keeps holds of every rule that is found. -/
theorem isNullable_induction {P : RuleId → Prop}
    (step : ∀ known id, (∀ x, known x = true → P x) → g.isNullableBy known id = true → P id)
    (h : g.isNullable id = true) : P id :=
  inferredVia_induction step (isNullable_eq g ▸ h)

/-- A rule is found if its children that it needs are. -/
theorem isNullable_of_step (h : g.isNullableBy g.isNullable id = true) :
    g.isNullable id = true := by
  rw [isNullable_eq] at h ⊢
  exact inferredVia_of_step (fun _ _ _ => isNullableBy_mono) (fun _ _ => lt_size_of_isNullableBy) h

/-! ## Empty words -/

/-- A bit may match nothing in any place, unless it is a dependent. -/
def Vanishes (g : Grammar) (id : RuleId) : Prop :=
  (∃ child, g.shape? id = some (.dependent child)) ∨
    ∀ afterAbsent, ∃ absent, MatchesBit g afterAbsent id absent []

variable {text : String} {symbols : SymbolMap} {l : Lowered}

theorem MatchesBit.matches_of_not_mayBeAbsent (hload : load text = .ok g) :
    ∀ {afterAbsent absent : Bool} {id : RuleId} {w : List String},
    MatchesBit g afterAbsent id absent w → (∀ child, g.shape? id ≠ some (.dependent child)) →
    ¬ g.MayBeAbsent id → g.Matches id w
  | _, _, _, _, .leftOut hshape, _, hmay => absurd (.option hshape) hmay
  | _, _, _, _, .option hshape _, _, hmay => absurd (.option hshape) hmay
  | _, _, _, _, .absent hshape, hno, _ => absurd hshape (hno _)
  | _, _, _, _, .dependent hshape _, hno, _ => absurd hshape (hno _)
  | _, _, _, _, .aliasOf hshape h, _, hmay => by
    have hplain := plain_of_load hload hshape nofun (List.mem_singleton_self _)
    exact .aliasOf hshape (h.matches_of_not_mayBeAbsent hload (not_dependent_of_plain hplain)
      fun hchild => hmay (.aliasOf hshape hchild))
  | _, _, _, _, .rule h, _, _ => h

/-- If every bit may match nothing, all do at once: options are left out, and with them the
    dependents after them. -/
theorem MatchesBits.of_vanishes {before : Option RuleId} {bits : List RuleId}
    (hattached : Attached g.shape? before bits)
    (hseparator : ∀ id child, g.shape? id ≠ some (.separator child))
    (h : ∀ bit ∈ bits, g.isSkippable bit = true ∨ g.Vanishes bit) {afterAbsent : Bool}
    (hopens : ∀ b, before = some b → Shape.Opens g.shape? b → afterAbsent = true) :
    MatchesBits g afterAbsent bits [] := by
  induction hattached generalizing afterAbsent with
  | nil => exact .nil
  | @cons before bit bits hbit _ ih =>
    obtain ⟨hfirst, hrest⟩ := List.forall_mem_cons.1 h
    -- the rest, if an option or a dependent is left out
    have hcons : ∀ {absent : Bool}, MatchesBit g afterAbsent bit absent [] →
        (Shape.Opens g.shape? bit → absent = true) →
        MatchesBits g afterAbsent (bit :: bits) [] := by
      intro absent hm habsent
      exact .cons hm (ih hrest fun b hb ho => habsent (by rwa [Option.some.inj hb]))
    by_cases hoption : ∃ child, g.shape? bit = some (.option child)
    · obtain ⟨child, hshape⟩ := hoption
      exact hcons (.leftOut hshape) fun _ => rfl
    by_cases hdependent : ∃ child, g.shape? bit = some (.dependent child)
    · obtain ⟨child, hshape⟩ := hdependent
      obtain ⟨b, hb, ho⟩ := hbit.resolve_left fun hplain =>
        not_dependent_of_plain hplain child hshape
      obtain rfl := hopens b hb ho
      exact hcons (.absent hshape) fun _ => rfl
    · have hskip : g.isSkippable bit ≠ true := by
        intro hskip
        unfold isSkippable at hskip
        split at hskip
        · exact hoption ⟨_, ‹_›⟩
        · exact hdependent ⟨_, ‹_›⟩
        · exact hseparator _ _ ‹_›
        · cases hskip
      obtain ⟨absent, hm⟩ := ((hfirst.resolve_left hskip).resolve_left hdependent) afterAbsent
      refine hcons hm fun ho => ?_
      obtain ⟨child, ho | ho⟩ := ho
      · exact absurd ⟨child, ho⟩ hoption
      · exact absurd ⟨child, ho⟩ hdependent

/-- A grammar with separators or delimiters is not lowered. -/
theorem LowersTo.no_repeats (h : g.LowersTo symbols l) (id child : RuleId) :
    g.shape? id ≠ some (.separator child) ∧ g.shape? id ≠ some (.delimiter child) := by
  refine ⟨fun hshape => ?_, fun hshape => ?_⟩
  · obtain ⟨rule, hrule, hr⟩ := Option.map_eq_some_iff.1 hshape
    exact (h.repeats hrule child).1 hr
  · obtain ⟨rule, hrule, hr⟩ := Option.map_eq_some_iff.1 hshape
    exact (h.repeats hrule child).2 hr

/-- The step keeps that a rule may match nothing. -/
theorem LowersTo.vanishes_of_step (h : g.LowersTo symbols l) (hload : load text = .ok g)
    {known : RuleId → Bool} (hknown : ∀ x, known x = true → g.Vanishes x)
    (hid : g.isNullableBy known id = true) : g.Vanishes id := by
  -- a child of a rule that is no sequence is no dependent
  have hchild : ∀ {child : RuleId} {shape : Shape}, g.shape? id = some shape →
      (∀ bits anonymous, shape ≠ .sequence bits anonymous) → child ∈ shape.children →
      known child = true → (∀ c, g.shape? child ≠ some (.dependent c)) ∧
        ∀ afterAbsent, ∃ absent, MatchesBit g afterAbsent child absent [] := by
    intro child shape hshape hseq hmem hk
    have hno := not_dependent_of_plain (plain_of_load hload hshape hseq hmem)
    exact ⟨hno, (hknown child hk).resolve_left fun ⟨c, hc⟩ => hno c hc⟩
  unfold isNullableBy at hid
  split at hid
  · rename_i child hshape
    exact .inr fun _ => ⟨true, .leftOut hshape⟩
  · rename_i child hshape
    exact .inl ⟨child, hshape⟩
  · rename_i child hshape
    exact absurd hshape (h.no_repeats id child).1
  · rename_i bits anonymous hshape
    simp only [List.all_eq_true, Bool.or_eq_true] at hid
    have hbits : MatchesBits g false bits [] := .of_vanishes (attached_of_load hload hshape)
      (fun id child => (h.no_repeats id child).1)
      (fun bit hbit => (hid bit hbit).imp_right (hknown bit)) nofun
    exact .inr fun _ => ⟨false, .rule (.sequence hshape hbits)⟩
  · rename_i bits hshape
    obtain ⟨bit, hbit, hk⟩ := List.any_eq_true.1 hid
    obtain ⟨hno, hm⟩ := hchild hshape nofun hbit hk
    obtain ⟨absent, hm⟩ := hm false
    obtain ⟨rule, hrule, hr⟩ := Option.map_eq_some_iff.1 hshape
    -- branches are no options, even behind aliases
    have hmay : ¬ g.MayBeAbsent bit := by
      intro hmay
      have hreads : Reads g symbols false bit none := hmay.reads
      exact not_reads_none (check_of_load hload) hrule hr hbit hreads
    exact .inr fun _ => ⟨false, .rule (.alternative hshape hbit
      (hm.matches_of_not_mayBeAbsent hload hno hmay))⟩
  · rename_i child hshape
    obtain ⟨-, hm⟩ := hchild hshape nofun (List.mem_singleton_self _) hid
    refine .inr fun afterAbsent => ?_
    obtain ⟨absent, hm⟩ := hm afterAbsent
    exact ⟨absent, .aliasOf hshape hm⟩
  · rename_i child hshape
    obtain ⟨-, hm⟩ := hchild hshape nofun (List.mem_singleton_self _) hid
    obtain ⟨absent, hm⟩ := hm false
    exact .inr fun _ => ⟨false, .rule (.plus (n := 0) hshape (.cons hm .nil))⟩
  · rename_i child hshape
    exact absurd hshape (h.no_repeats id child).2
  · cases hid
  · cases hid

mutual

/-- Rules that match the empty word are found. -/
theorem Matches.isNullable : ∀ {id : RuleId} {w : List String}, g.Matches id w → w = [] →
    g.isNullable id = true
  | _, _, .term _, hw => nomatch hw
  | _, _, .sequence hshape hbits, hw => isNullable_of_step (by
    simp only [isNullableBy, hshape, List.all_eq_true, Bool.or_eq_true]
    exact fun bit hbit => .inr (hbits.isNullable hw bit hbit))
  | _, _, .alternative hshape hbit h, hw => isNullable_of_step (by
    simp only [isNullableBy, hshape, List.any_eq_true]
    exact ⟨_, hbit, h.isNullable hw⟩)
  | _, _, .aliasOf hshape h, hw => isNullable_of_step (by
    simp only [isNullableBy, hshape]
    exact h.isNullable hw)
  | _, _, .plus hshape hbits, hw => isNullable_of_step (by
    simp only [isNullableBy, hshape]
    exact hbits.isNullable hw _ (List.mem_cons_self ..))

theorem MatchesBit.isNullable : ∀ {afterAbsent absent : Bool} {id : RuleId} {w : List String},
    MatchesBit g afterAbsent id absent w → w = [] → g.isNullable id = true
  | _, _, _, _, .leftOut hshape, _ | _, _, _, _, .option hshape _, _
  | _, _, _, _, .absent hshape, _ | _, _, _, _, .dependent hshape _, _ =>
    isNullable_of_step (by simp only [isNullableBy, hshape])
  | _, _, _, _, .aliasOf hshape h, hw => isNullable_of_step (by
    simp only [isNullableBy, hshape]
    exact h.isNullable hw)
  | _, _, _, _, .rule h, hw => h.isNullable hw

theorem MatchesBits.isNullable : ∀ {afterAbsent : Bool} {bits : List RuleId} {w : List String},
    MatchesBits g afterAbsent bits w → w = [] → ∀ bit ∈ bits, g.isNullable bit = true
  | _, _, _, .nil, _ => nofun
  | _, _, _, .cons hbit hbits, hw => by
    obtain ⟨hu, hv⟩ := List.append_eq_nil_iff.1 hw
    exact List.forall_mem_cons.2 ⟨hbit.isNullable hu, hbits.isNullable hv⟩

end

/-- The rules that are found are those that match the empty word. -/
theorem LowersTo.isNullable_iff_matches (h : g.LowersTo symbols l) (hload : load text = .ok g)
    {rule : Rule} (hrule : g.rule? id = some rule)
    (hkind : rule.shape.isTerm = true ∨ hasNonterminal rule.shape = true) :
    g.isNullable id = true ↔ g.Matches id [] := by
  refine ⟨fun hid => ?_, fun hm => hm.isNullable rfl⟩
  have hvanishes : g.Vanishes id :=
    isNullable_induction (fun known x hknown hx => h.vanishes_of_step hload hknown hx) hid
  -- a rule with a symbol links to no other
  have hno : ∀ {child : RuleId}, ¬ g.Follows id child := fun hlink => hlink.not_hasKind hrule hkind
  rcases hvanishes with ⟨child, hdependent⟩ | hm
  · exact absurd (.inr hdependent) hno
  · obtain ⟨absent, hm⟩ := hm false
    cases hm with
    | rule hm => exact hm
    | leftOut hlink => exact absurd (.inl (.inr hlink)) hno
    | option hlink _ => exact absurd (.inl (.inr hlink)) hno
    | dependent hlink _ => exact absurd (.inr hlink) hno
    | aliasOf hlink _ => exact absurd (.inl (.inl hlink)) hno

end LanguageWorkbench.Grammar
