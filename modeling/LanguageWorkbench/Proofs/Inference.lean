import LanguageWorkbench.NatSet
import Mathlib.Data.List.Perm.Subperm
import Mathlib.Tactic.ByContra
import Mathlib.Tactic.Push

/-!
# Inference along paths loses nothing

A property that a step infers from node to node is asked for along paths, and a node that a
path meets again counts as one without it. No answer is lost by that: where the answer needs
the node in question, the node has an answer by a shorter path. So the nodes that are found
are the least set that is closed under the step.

The step must be monotone, and it may infer the property only of nodes below `count`.

Results:
* `inferredVia_eq`: more fuel than there are nodes changes no answer.
* `inferredVia_induction`: what the step keeps holds of the nodes that are found.
* `inferredVia_of_step`: the nodes that are found are closed under the step.
-/

namespace LanguageWorkbench

variable {step : (Nat → Bool) → Nat → Bool} {count fuel fuel' node x : Nat}
  {path path' : List Nat}

/-- More known nodes let more be inferred. -/
def Monotonic (step : (Nat → Bool) → Nat → Bool) : Prop :=
  ∀ (known known' : Nat → Bool) (node : Nat), (∀ x, known x = true → known' x = true) →
    step known node = true → step known' node = true

/-- The property is inferred of nodes below `count` only. -/
def Within (count : Nat) (step : (Nat → Bool) → Nat → Bool) : Prop :=
  ∀ (known : Nat → Bool) (node : Nat), step known node = true → node < count

theorem inferredVia_succ : inferredVia step (fuel + 1) path node = true ↔
    node ∉ path ∧ step (inferredVia step fuel (node :: path)) node = true := by
  simp [inferredVia]

/-! ## Fuel and paths -/

/-- More fuel and a path with fewer nodes find more. -/
theorem inferredVia_mono (hmono : Monotonic step) (hfuel : fuel ≤ fuel') (hpath : path' ⊆ path)
    (h : inferredVia step fuel path node = true) : inferredVia step fuel' path' node = true := by
  induction fuel generalizing fuel' path path' node with
  | zero => cases h
  | succ fuel ih =>
    obtain ⟨fuel', rfl⟩ : ∃ n, fuel' = n + 1 := ⟨fuel' - 1, by omega⟩
    rw [inferredVia_succ] at h ⊢
    refine ⟨fun hnode => h.1 (hpath hnode), hmono _ _ _ (fun y hy => ?_) h.2⟩
    exact ih (by omega) (List.cons_subset_cons node hpath) hy

/-- What is found is found without the node, or a path finds the node itself. -/
theorem inferredVia_append_or (hmono : Monotonic step) (h : inferredVia step fuel path x = true) :
    inferredVia step fuel (path ++ [node]) x = true ∨
      ∃ path', inferredVia step fuel path' node = true := by
  induction fuel generalizing path x with
  | zero => cases h
  | succ fuel ih =>
    by_cases hx : x = node
    · subst hx
      exact .inr ⟨path, h⟩
    · rw [inferredVia_succ] at h ⊢
      by_cases hall : ∀ y, inferredVia step fuel (x :: path) y = true →
          inferredVia step fuel (x :: path ++ [node]) y = true
      · refine .inl ⟨?_, hmono _ _ _ hall h.2⟩
        simpa [hx] using h.1
      · push Not at hall
        obtain ⟨y, hy, hnot⟩ := hall
        obtain ⟨path', hnode⟩ := (ih hy).resolve_left hnot
        exact .inr ⟨path', inferredVia_mono hmono (Nat.le_succ fuel) (List.Subset.refl _) hnode⟩

/-- A path of different nodes ends before the fuel does. -/
theorem inferredVia_of_succ (hmono : Monotonic step) (hwithin : Within count step)
    (hnodup : path.Nodup) (hlt : ∀ p ∈ path, p < count) (hcount : count < fuel + path.length)
    (h : inferredVia step (fuel + 1) path node = true) :
    inferredVia step fuel path node = true := by
  induction fuel generalizing path node with
  | zero =>
    have hsub : path ⊆ List.range count := fun p hp => List.mem_range.2 (hlt p hp)
    have hle := (hnodup.subperm hsub).length_le
    rw [List.length_range] at hle
    omega
  | succ fuel ih =>
    rw [inferredVia_succ] at h ⊢
    refine ⟨h.1, hmono _ _ _ (fun y hy => ?_) h.2⟩
    refine ih (List.nodup_cons.2 ⟨h.1, hnodup⟩)
      (List.forall_mem_cons.2 ⟨hwithin _ _ h.2, hlt⟩) ?_ hy
    rw [List.length_cons]
    omega

/-- The fuel decides nothing: more of it than there are nodes changes no answer. -/
theorem inferredVia_eq (hmono : Monotonic step) (hwithin : Within count step)
    (hfuel : count < fuel) :
    inferredVia step fuel [] node = inferredVia step (count + 1) [] node := by
  obtain ⟨more, rfl⟩ := Nat.exists_eq_add_of_lt hfuel
  induction more with
  | zero => rfl
  | succ more ih =>
    rw [← ih (by omega), Bool.eq_iff_iff]
    constructor
    · exact inferredVia_of_succ hmono hwithin List.nodup_nil (fun _ hp => nomatch hp) (by
        rw [List.length_nil]
        omega)
    · exact inferredVia_mono hmono (Nat.le_succ _) (List.Subset.refl _)

/-! ## The least closed set -/

/-- What the step keeps holds of every node that is found. -/
theorem inferredVia_induction {P : Nat → Prop}
    (keeps : ∀ known node, (∀ x, known x = true → P x) → step known node = true → P node)
    (h : inferredVia step fuel path node = true) : P node := by
  induction fuel generalizing path node with
  | zero => cases h
  | succ fuel ih => exact keeps _ node (fun x hx => ih hx) (inferredVia_succ.1 h).2

/-- A node is found if the nodes that it needs are. -/
theorem inferredVia_of_step (hmono : Monotonic step) (hwithin : Within count step)
    (h : step (inferredVia step (count + 1) []) node = true) :
    inferredVia step (count + 1) [] node = true := by
  by_contra hnode
  -- if the node is not found, nothing that is found needs it, so all of it is found beside it
  have hshort : ∀ y, inferredVia step (count + 1) [] y = true →
      inferredVia step count [node] y = true := by
    intro y hy
    rcases inferredVia_append_or hmono hy with hy | ⟨path, hpath⟩
    · exact inferredVia_of_succ hmono hwithin (List.pairwise_singleton _ node)
        (List.forall_mem_singleton.2 (hwithin _ _ h)) (Nat.lt_succ_self _) hy
    · exact absurd (inferredVia_mono hmono (Nat.le_refl _) (List.nil_subset _) hpath) hnode
  exact hnode (inferredVia_succ.2 ⟨List.not_mem_nil, hmono _ _ _ hshort h⟩)

end LanguageWorkbench
