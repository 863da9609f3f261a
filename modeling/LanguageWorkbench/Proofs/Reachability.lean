import LanguageWorkbench.NatSet
import Mathlib.Data.Finset.Card
import Mathlib.Logic.Relation

/-!
# Walks find what links lead to

A walk that has more fuel than there are nodes left to visit ends closed under the links
of the nodes it has found. So it finds exactly what links lead to.

Results:
* `visit_spec`: what one visit adds, and that it is closed.
* `mem_foldl_visit_iff`, `mem_reachable_iff`: the nodes that walks from some starts and
  `reachable` find.
* `Walks`, `walks_visit`: a walk that keeps a stack of nodes ends, and finds the same nodes in
  the same order.
-/

namespace LanguageWorkbench

variable {links : Nat → List Nat} {count : Nat}

/-- The nodes below `count` that are not visited. -/
def unvisited (count : Nat) (visited : List Nat) : Finset Nat :=
  (Finset.range count).filter (· ∉ visited)

theorem unvisited_mono {visited visited' : List Nat} (h : visited ⊆ visited') :
    (unvisited count visited').card ≤ (unvisited count visited).card := by
  refine Finset.card_le_card fun n hn => ?_
  rw [unvisited, Finset.mem_filter] at hn ⊢
  exact ⟨hn.1, fun hm => hn.2 (h hm)⟩

theorem unvisited_cons_lt {node : Nat} {visited : List Nat} (hlt : node < count)
    (hnew : node ∉ visited) :
    (unvisited count (node :: visited)).card < (unvisited count visited).card := by
  refine Finset.card_lt_card (Finset.ssubset_iff_of_subset ?_ |>.2 ⟨node, ?_, ?_⟩)
  · intro n hn
    rw [unvisited, Finset.mem_filter] at hn ⊢
    exact ⟨hn.1, fun hm => hn.2 (List.mem_cons_of_mem _ hm)⟩
  · rw [unvisited, Finset.mem_filter, Finset.mem_range]
    exact ⟨hlt, hnew⟩
  · rw [unvisited, Finset.mem_filter]
    exact fun h => h.2 List.mem_cons_self

theorem unvisited_nil_lt (count : Nat) : (unvisited count []).card < count + 1 := by
  have := Finset.card_filter_le (Finset.range count) (· ∉ ([] : List Nat))
  rw [Finset.card_range] at this
  exact Nat.lt_succ_of_le this

/-! ## Walks are closed -/

/-- A list of visited nodes that grew closed: what is new comes with all its links. -/
structure Walked (links : Nat → List Nat) (visited visited' : List Nat) : Prop where
  sub : visited ⊆ visited'
  closed : ∀ n ∈ visited', n ∉ visited → links n ⊆ visited'

theorem Walked.refl (visited : List Nat) : Walked links visited visited :=
  ⟨List.Subset.refl _, fun _ hn hn' => absurd hn hn'⟩

theorem Walked.trans {a b c : List Nat} (h : Walked links a b) (h' : Walked links b c) :
    Walked links a c := by
  refine ⟨List.Subset.trans h.sub h'.sub, fun n hn hna => ?_⟩
  by_cases hnb : n ∈ b
  · exact List.Subset.trans (h.closed n hnb hna) h'.sub
  · exact h'.closed n hn hnb

/-- Visits one after the other find all their nodes, if each does. -/
theorem foldl_visit_spec {fuel : Nat}
    (ih : ∀ {visited : List Nat} (node : Nat), (unvisited count visited).card < fuel →
      Walked links visited (visit links fuel visited node) ∧ node ∈ visit links fuel visited node)
    {ks visited : List Nat} (h : (unvisited count visited).card < fuel) :
    Walked links visited (ks.foldl (visit links fuel) visited) ∧
      ks ⊆ ks.foldl (visit links fuel) visited := by
  induction ks generalizing visited with
  | nil => exact ⟨.refl visited, List.nil_subset _⟩
  | cons k ks ihks =>
    obtain ⟨hw, hk⟩ := ih k h
    obtain ⟨hw', hks⟩ := ihks (Nat.lt_of_le_of_lt (unvisited_mono hw.sub) h)
    exact ⟨hw.trans hw', List.cons_subset.2 ⟨hw'.sub hk, hks⟩⟩

/-- With more fuel than nodes left, a visit finds its node and walks on to the end. -/
theorem visit_spec (hlinks : ∀ n, links n ≠ [] → n < count) {fuel : Nat} {visited : List Nat}
    (node : Nat) (h : (unvisited count visited).card < fuel) :
    Walked links visited (visit links fuel visited node) ∧
      node ∈ visit links fuel visited node := by
  induction fuel generalizing visited node with
  | zero => exact absurd h (Nat.not_lt_zero _)
  | succ fuel ih =>
    unfold visit
    split
    · rename_i hmem
      exact ⟨.refl visited, hmem⟩
    · rename_i hnew
      have hspec : Walked links (node :: visited)
          ((links node).foldl (visit links fuel) (node :: visited)) ∧
          links node ⊆ (links node).foldl (visit links fuel) (node :: visited) := by
        by_cases hnil : links node = []
        · rw [hnil]
          exact ⟨.refl _, List.nil_subset _⟩
        · have := unvisited_cons_lt (hlinks node hnil) hnew
          exact foldl_visit_spec ih (by omega)
      obtain ⟨hw, hks⟩ := hspec
      refine ⟨⟨List.Subset.trans (List.subset_cons_self _ _) hw.sub, fun n hn hnv => ?_⟩,
        hw.sub List.mem_cons_self⟩
      by_cases hnode : n = node
      · exact hnode ▸ hks
      · exact hw.closed n hn fun hm => (List.mem_cons.1 hm).elim hnode hnv

/-! ## Walks stay on links -/

/-- A path along links. -/
abbrev Linked (links : Nat → List Nat) : Nat → Nat → Prop :=
  Relation.ReflTransGen fun a b => b ∈ links a

theorem linked_of_mem_visit {fuel : Nat} {visited : List Nat} {node n : Nat}
    (h : n ∈ visit links fuel visited node) : n ∈ visited ∨ Linked links node n := by
  induction fuel generalizing visited node with
  | zero => exact .inl h
  | succ fuel ih =>
    unfold visit at h
    split at h
    · exact .inl h
    · have hfold : ∀ {ks visited' : List Nat}, ks ⊆ links node →
          n ∈ ks.foldl (visit links fuel) visited' → n ∈ visited' ∨ Linked links node n := by
        intro ks
        induction ks with
        | nil => exact fun _ hn => .inl hn
        | cons k ks ihks =>
          intro visited' hsub hn
          obtain ⟨hk, hks⟩ := List.cons_subset.1 hsub
          rcases ihks hks hn with hn | hn
          · exact (ih hn).imp_right fun hkn => .head hk hkn
          · exact .inr hn
      rcases hfold (List.Subset.refl _) h with hn | hn
      · rcases List.mem_cons.1 hn with rfl | hn
        · exact .inr .refl
        · exact .inl hn
      · exact .inr hn

theorem linked_of_mem_foldl_visit {fuel : Nat} {starts visited : List Nat} {n : Nat}
    (h : n ∈ starts.foldl (visit links fuel) visited) :
    n ∈ visited ∨ ∃ start ∈ starts, Linked links start n := by
  induction starts generalizing visited with
  | nil => exact .inl h
  | cons start starts ih =>
    rcases ih h with h | ⟨start', hstart', h⟩
    · rcases linked_of_mem_visit h with h | h
      · exact .inl h
      · exact .inr ⟨start, List.mem_cons_self, h⟩
    · exact .inr ⟨start', List.mem_cons_of_mem _ hstart', h⟩

/-- The nodes that links lead to from some starts, where all links are among `count` nodes. -/
theorem mem_foldl_visit_iff (hlinks : ∀ n, links n ≠ [] → n < count) {starts : List Nat}
    {n : Nat} : n ∈ starts.foldl (visit links (count + 1)) [] ↔
      ∃ start ∈ starts, Linked links start n := by
  constructor
  · intro h
    exact (linked_of_mem_foldl_visit h).resolve_left List.not_mem_nil
  · rintro ⟨start, hstart, h⟩
    obtain ⟨hw, hstarts⟩ : Walked links [] (starts.foldl (visit links (count + 1)) []) ∧
        starts ⊆ starts.foldl (visit links (count + 1)) [] :=
      foldl_visit_spec (fun node hcard => visit_spec hlinks node hcard) (unvisited_nil_lt count)
    induction h with
    | refl => exact hstarts hstart
    | tail _ hlink ih => exact hw.closed _ ih List.not_mem_nil hlink

/-- The nodes that links lead to, where all links are among `count` nodes. -/
theorem mem_reachable_iff (hlinks : ∀ n, links n ≠ [] → n < count) {start n : Nat} :
    n ∈ reachable links count start ↔ Linked links start n := by
  have hone : n ∈ [start].foldl (visit links (count + 1)) [] ↔ _ := mem_foldl_visit_iff hlinks
  rw [reachable, List.mem_reverse]
  simpa using hone

/-! ## Walks with a stack -/

/-- `Walks links todo visited visited'`: a walk with the nodes `todo` on its stack, the top
    first, that has visited `visited`, last first, comes to an end and has visited `visited'`
    then. A node from the stack that was visited before is passed over. For any other the nodes
    that its links lead to go on the stack, the first of them on top. -/
inductive Walks (links : Nat → List Nat) : List Nat → List Nat → List Nat → Prop
  | done (visited : List Nat) : Walks links [] visited visited
  | again {node : Nat} {todo visited visited' : List Nat} (h : node ∈ visited)
      (hrest : Walks links todo visited visited') : Walks links (node :: todo) visited visited'
  | new {node : Nat} {todo visited visited' : List Nat} (h : node ∉ visited)
      (hrest : Walks links (links node ++ todo) (node :: visited) visited') :
      Walks links (node :: todo) visited visited'

/-- A walk visits no node twice. -/
theorem Walks.nodup {todo visited visited' : List Nat} (h : Walks links todo visited visited')
    (hnodup : visited.Nodup) : visited'.Nodup := by
  induction h with
  | done _ => exact hnodup
  | again _ _ ih => exact ih hnodup
  | new h _ ih => exact ih (List.nodup_cons.2 ⟨h, hnodup⟩)

/-- A walk with a stack goes through the nodes on top as visits one after the other do. -/
theorem Walks.append (hlinks : ∀ n, links n ≠ [] → n < count) {fuel : Nat}
    {ks todo visited visited' : List Nat} (hfuel : (unvisited count visited).card < fuel)
    (h : Walks links todo (ks.foldl (visit links fuel) visited) visited') :
    Walks links (ks ++ todo) visited visited' := by
  induction fuel generalizing ks todo visited visited' with
  | zero => exact absurd hfuel (Nat.not_lt_zero _)
  | succ fuel ih =>
    induction ks generalizing visited with
    | nil => exact h
    | cons k ks ihks =>
      have hsub := (visit_spec hlinks k hfuel).1.sub
      have hrest := ihks (Nat.lt_of_le_of_lt (unvisited_mono hsub) hfuel) h
      unfold visit at hrest
      split at hrest
      · rename_i hmem
        exact .again hmem hrest
      · rename_i hnew
        refine .new hnew ?_
        by_cases hnil : links k = []
        · rw [hnil] at hrest ⊢
          exact hrest
        · have := unvisited_cons_lt (hlinks k hnil) hnew
          exact ih (by omega) hrest

/-- A walk with a stack ends with the nodes that a visit finds. -/
theorem walks_visit (hlinks : ∀ n, links n ≠ [] → n < count) (start : Nat) :
    Walks links [start] [] (visit links (count + 1) [] start) := by
  show Walks links ([start] ++ []) [] _
  exact .append hlinks (unvisited_nil_lt count) (.done _)

end LanguageWorkbench
