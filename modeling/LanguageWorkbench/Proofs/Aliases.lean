import LanguageWorkbench.Grammar.Check
import LanguageWorkbench.Proofs.Choices

/-!
# Chains of aliases

A chain of aliases that ends never comes back to a rule it has met, and it has no more
links than there are rules. So `Grammar.resolveAlias` finds its end.

Results:
* `Grammar.LeadsTo.resolveAlias_eq`: the end of a chain is what `resolveAlias` finds.
* `Grammar.not_reads_none`: the branches of a checked grammar are never left out.
-/

namespace LanguageWorkbench.Grammar

variable {g : Grammar} {id child y : RuleId}

/-- A chain of `k` aliases from a rule to one that is no alias. -/
inductive LeadsTo (g : Grammar) : Nat → RuleId → RuleId → Prop
  | refl {id : RuleId} : g.aliasTarget? id = none → LeadsTo g 0 id id
  | step {k : Nat} {id child y : RuleId} : g.aliasTarget? id = some child →
      LeadsTo g k child y → LeadsTo g (k + 1) id y

theorem aliasTarget?_eq_some_iff :
    g.aliasTarget? id = some child ↔ g.shape? id = some (.aliasOf child) := by
  unfold aliasTarget?
  split
  · rename_i c h
    simp [h]
  · rename_i h
    simp only [reduceCtorEq, false_iff]
    exact h child

theorem lt_of_aliasTarget? (h : g.aliasTarget? id = some child) : id < g.size := by
  rw [aliasTarget?_eq_some_iff, shape?, Option.map_eq_some_iff] at h
  obtain ⟨rule, hrule, -⟩ := h
  exact (Array.getElem?_eq_some_iff.1 hrule).1

theorem LeadsTo.length_unique {k k' : Nat} {z : RuleId} (h : g.LeadsTo k id y)
    (h' : g.LeadsTo k' id z) : k = k' := by
  induction h generalizing k' with
  | refl hend =>
    cases h' with
    | refl _ => rfl
    | step hnext _ => rw [hend] at hnext; cases hnext
  | step hnext _ ih =>
    cases h' with
    | refl hend => rw [hend] at hnext; cases hnext
    | step hnext' h' =>
      obtain rfl := Option.some.inj (hnext.symm.trans hnext')
      rw [ih h']

/-- The rules that a chain came through are farther from its end than where it is. -/
theorem LeadsTo.followAlias_eq {k : Nat} (h : g.LeadsTo k id y) :
    ∀ {fuel : Nat} {seen : List RuleId}, seen.Nodup → (∀ x ∈ seen, x < g.size) →
      (∀ x ∈ seen, ∃ k', k < k' ∧ g.LeadsTo k' x y) → g.size < fuel + seen.length →
      g.followAlias fuel seen id = y := by
  induction h with
  | refl hend =>
    intro fuel seen _ _ _ _
    cases fuel with
    | zero => rfl
    | succ fuel => simp [followAlias, hend]
  | @step k id child y hnext h ih =>
    intro fuel seen hnodup hlt hseen hfuel
    have hlen : seen.length ≤ g.size := by
      have hsub : seen ⊆ List.range g.size := fun x hx => List.mem_range.2 (hlt x hx)
      simpa using (hnodup.subperm hsub).length_le
    obtain ⟨fuel, rfl⟩ : ∃ n, fuel = n + 1 := ⟨fuel - 1, by omega⟩
    have hnew : id ∉ seen := by
      intro hmem
      obtain ⟨k', hk', hleads⟩ := hseen id hmem
      have := (LeadsTo.step hnext h).length_unique hleads
      omega
    simp only [followAlias, hnext, if_neg hnew]
    refine ih (List.nodup_cons.2 ⟨hnew, hnodup⟩) ?_ ?_ ?_
    · intro x hx
      rcases List.mem_cons.1 hx with rfl | hx
      · exact lt_of_aliasTarget? hnext
      · exact hlt x hx
    · intro x hx
      rcases List.mem_cons.1 hx with rfl | hx
      · exact ⟨k + 1, Nat.lt_succ_self k, .step hnext h⟩
      · obtain ⟨k', hk', hleads⟩ := hseen x hx
        exact ⟨k', by omega, hleads⟩
    · rw [List.length_cons]
      omega

theorem LeadsTo.resolveAlias_eq {k : Nat} (h : g.LeadsTo k id y) : g.resolveAlias id = y :=
  h.followAlias_eq List.nodup_nil (by simp) (by simp) (by simp)

/-! ## Branches of alternatives -/

/-- An option, or a bit that depends on another, is what stands behind itself. -/
theorem leadsTo_self_of_optional {child : RuleId}
    (h : g.shape? id = some (.option child) ∨ g.shape? id = some (.dependent child)) :
    g.LeadsTo 0 id id ∧ g.isOptional id = true := by
  rcases h with h | h <;>
  · exact ⟨.refl (by simp [aliasTarget?, h]), by simp [isOptional, h]⟩

/-- Behind a bit that is left out on its own account stands an option. -/
theorem Reads.exists_leadsTo {symbols : SymbolMap} (h : Reads g symbols false id none) :
    ∃ k y, g.LeadsTo k id y ∧ g.isOptional y = true := by
  generalize hr : none = r at h
  generalize hb : false = afterAbsent at h
  induction h with
  | rule _ _ _ => cases hr
  | aliasOf hshape _ ih =>
    obtain ⟨k, y, hleads, hy⟩ := ih hr
    exact ⟨k + 1, y, .step (aliasTarget?_eq_some_iff.2 hshape) hleads, hy⟩
  | leftOut hshape | option hshape _ _ => exact ⟨0, _, leadsTo_self_of_optional (.inl hshape)⟩
  | absent hshape _ | dependent hshape _ _ _ =>
    exact ⟨0, _, leadsTo_self_of_optional (.inr hshape)⟩

theorem checkBranches_of_check (h : g.check = .ok ()) {rule : Rule}
    (hrule : g.rule? id = some rule) : g.checkBranches rule = .ok () := by
  unfold check at h
  obtain ⟨_, -, h⟩ := bind_eq_ok_iff.1 h
  obtain ⟨_, -, h⟩ := bind_eq_ok_iff.1 h
  obtain ⟨_, h, -⟩ := bind_eq_ok_iff.1 h
  refine forall_of_forIn (P := fun rule => g.checkBranches rule = .ok ()) ?_ h rule
    (Array.mem_toList_iff.2 (Array.mem_of_getElem? hrule))
  intro r step hstep
  obtain ⟨_, hr, hstep⟩ := bind_eq_ok_iff.1 hstep
  cases hstep
  exact ⟨rfl, hr⟩

/-- Behind a branch of a checked grammar stands nothing optional. -/
theorem LeadsTo.not_isOptional {k : Nat} {bit : RuleId} (hleads : g.LeadsTo k bit y)
    (h : g.check = .ok ()) {rule : Rule} (hrule : g.rule? id = some rule) {bits : List RuleId}
    (hshape : rule.shape = .alternative bits) (hbit : bit ∈ bits) : ¬ g.isOptional y = true := by
  intro hy
  have hcheck := checkBranches_of_check h hrule
  simp only [checkBranches, hshape] at hcheck
  split at hcheck
  · cases hcheck
  · rename_i hnone
    have := List.find?_eq_none.1 hnone bit hbit
    rw [hleads.resolveAlias_eq] at this
    exact this hy

/-- The branches of a checked grammar are never left out. -/
theorem not_reads_none (h : g.check = .ok ()) {rule : Rule} (hrule : g.rule? id = some rule)
    {bits : List RuleId} (hshape : rule.shape = .alternative bits) {bit : RuleId}
    (hbit : bit ∈ bits) {symbols : SymbolMap} : ¬ Reads g symbols false bit none := by
  intro hreads
  obtain ⟨k, y, hleads, hy⟩ := hreads.exists_leadsTo
  exact hleads.not_isOptional h hrule hshape hbit hy

end LanguageWorkbench.Grammar
