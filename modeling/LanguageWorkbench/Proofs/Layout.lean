import LanguageWorkbench.Policy
import Mathlib.Data.List.Basic
import Mathlib.Tactic.Common

/-!
# The layout of printed trees

A printed tree is the texts of its leaves with a gap before each but the first. The gap hangs on
the two leaves, the trees directly above them and the number of blocks that are open between
them. Where one of the leaves structures blocks or statements, glue counts for nothing.

Results:
* `Node.filterMap_visits`: the leaves of a node are those that a walk enters.
* `Policy.Between`: the gap between two leaves, by the rules of the policy.
* `Policy.emit_layout`: the printed form of a node, gap by gap.
-/

namespace LanguageWorkbench

/-! ## Leaves on a walk -/

namespace Node

/-- The leaf that a walk enters, with the kind of the tree above it. -/
def Visit.leaf? (v : Visit) : Option Leaf :=
  match v.entering, v.node with
  | true, .leaf _ kind text => some ⟨kind, text, v.parent⟩
  | _, _ => none

mutual

theorem filterMap_visitsUnder (parent : Option Kind) :
    ∀ n : Node, (n.visitsUnder parent).filterMap Visit.leaf? = n.leavesUnder parent
  | .nothing => rfl
  | .leaf .. => rfl
  | .tree id kind tokens children => by
    have hself : ∀ entering, Visit.leaf? ⟨entering, tree id kind tokens children, parent⟩ = none :=
      fun entering => by cases entering <;> rfl
    rw [visitsUnder, leavesUnder, List.filterMap_cons, hself, List.filterMap_append,
      filterMap_visitsOf (some kind) children]
    simp [hself]

theorem filterMap_visitsOf (parent : Option Kind) :
    ∀ ns : List Node, (visitsOf parent ns).filterMap Visit.leaf? = leavesOf parent ns
  | [] => rfl
  | n :: rest => by
    rw [visitsOf, leavesOf, List.filterMap_append, filterMap_visitsUnder parent n,
      filterMap_visitsOf parent rest]

end

/-- The leaves of a node are those that a walk enters. -/
theorem filterMap_visits (n : Node) : n.visits.filterMap Visit.leaf? = n.leaves :=
  filterMap_visitsUnder none n

end Node

namespace Policy

variable {p : Policy} {prev l : Node.Leaf} {text : String} {depth : Nat}

/-! ## What a policy says of a leaf -/

/-- The leaf has the text, and the policy does not keep it on its line. -/
def Structural (p : Policy) (text : String) (l : Node.Leaf) : Prop :=
  l.text = text ∧ ∀ k ∈ l.parent, (text, k) ∉ p.flat

/-- The text of a leaf is on a list of glue, for all trees or for the kind of the tree directly
    above the leaf. -/
def Listed (glue : List (String × Option Kind)) (l : Node.Leaf) : Prop :=
  (l.text, none) ∈ glue ∨ ∃ k ∈ l.parent, (l.text, some k) ∈ glue

theorem structures_iff : p.structures l text = true ↔ p.Structural text l := by
  unfold structures isFlat Structural
  cases hparent : l.parent with
  | none => simp
  | some k =>
    simp only [Option.any_some, Bool.and_eq_true, decide_eq_true_eq, Bool.not_eq_true',
      List.contains_eq_mem, decide_eq_false_iff_not, Option.mem_some_iff, forall_eq']
    exact and_congr_right fun h => by rw [h]

theorem applies_iff {glue : List (String × Option Kind)} :
    applies glue l.text l.parent = true ↔ Listed glue l := by
  unfold applies Listed
  cases hparent : l.parent <;> simp

instance (p : Policy) (text : String) (l : Node.Leaf) : Decidable (p.Structural text l) :=
  decidable_of_iff _ structures_iff

instance (glue : List (String × Option Kind)) (l : Node.Leaf) : Decidable (Listed glue l) :=
  decidable_of_iff _ applies_iff

/-! ## Open blocks -/

/-- The number of blocks that are open after a leaf, where `depth` are open before it. -/
def openAfter (p : Policy) (depth : Nat) (l : Node.Leaf) : Nat :=
  if p.Structural opener l then depth + 1
  else if p.Structural closer l then depth - 1
  else depth

/-- The number of blocks that leaves leave open. -/
def openBlocks (p : Policy) (leaves : List Node.Leaf) : Nat := leaves.foldl p.openAfter 0

/-- The number of open blocks that a leaf stands in after other leaves. The end of a block
    stands outside. -/
def depthAt (p : Policy) (before : List Node.Leaf) (l : Node.Leaf) : Nat :=
  if p.Structural closer l then p.openBlocks before - 1 else p.openBlocks before

theorem openBlocks_append_singleton (before : List Node.Leaf) (l : Node.Leaf) :
    p.openBlocks (before ++ [l]) = p.openAfter (p.openBlocks before) l :=
  List.foldl_append ..

theorem depthBefore_eq (p : Policy) (depth : Nat) (l : Node.Leaf) :
    p.depthBefore depth l = if p.Structural closer l then depth - 1 else depth := by
  simp only [depthBefore, structures_iff]

theorem depthAfter_eq (p : Policy) (depth : Nat) (l : Node.Leaf) :
    p.depthAfter depth l = p.openAfter depth l := by
  have hboth : ¬ (p.Structural opener l ∧ p.Structural closer l) := by
    rintro ⟨⟨hopen, -⟩, hclose, -⟩
    exact absurd (hopen.symm.trans hclose) (by decide)
  simp only [depthAfter, depthBefore_eq, structures_iff, openAfter]
  split_ifs with hopen hclose
  · exact absurd ⟨hopen, hclose⟩ hboth
  all_goals rfl

/-! ## Gaps -/

/-- A new line starts between two leaves: where a block begins or ends before or after the gap,
    and where a statement ends before it. -/
def Breaks (p : Policy) (prev l : Node.Leaf) : Prop :=
  p.Structural closer l ∨ p.Structural opener l ∨ p.Structural ";" prev ∨
    p.Structural opener prev ∨ p.Structural closer prev

/-- The end of a statement right after a block. -/
def Ends (p : Policy) (prev l : Node.Leaf) : Prop := p.Structural closer prev ∧ l.text = ";"

/-- The policy glues one of two leaves to the other. -/
def Glued (p : Policy) (prev l : Node.Leaf) : Prop := Listed p.glueAfter prev ∨ Listed p.glueBefore l

instance (p : Policy) (prev l : Node.Leaf) : Decidable (p.Breaks prev l) :=
  inferInstanceAs (Decidable (_ ∨ _))

instance (p : Policy) (prev l : Node.Leaf) : Decidable (p.Ends prev l) :=
  inferInstanceAs (Decidable (_ ∧ _))

instance (p : Policy) (prev l : Node.Leaf) : Decidable (p.Glued prev l) :=
  inferInstanceAs (Decidable (_ ∨ _))

/-- What the policy puts between two leaves, where `depth` blocks are open. -/
structure Between (p : Policy) (depth : Nat) (prev l : Node.Leaf) (gap : String) : Prop where
  /-- A line break, and four spaces for each open block. -/
  line : p.Breaks prev l → ¬ p.Ends prev l →
    gap = String.ofList ('\n' :: List.replicate (4 * depth) ' ')
  /-- The end of a statement stays with the block that it follows. -/
  ends : p.Ends prev l → gap = ""
  glued : ¬ p.Breaks prev l → p.Glued prev l → gap = ""
  apart : ¬ p.Breaks prev l → ¬ p.Glued prev l → gap = " "

theorem render_newline (depth : Nat) :
    Gap.newline.render depth = String.ofList ('\n' :: List.replicate (4 * depth) ' ') := by
  have hindent : ("    " : String).toList = List.replicate 4 ' ' := by decide
  have hjoin : (List.replicate depth (List.replicate 4 ' ')).flatten =
      List.replicate (4 * depth) ' ' := by
    rw [List.flatten_replicate_replicate, Nat.mul_comm]
  apply String.toList_inj.1
  rw [Gap.render, String.toList_append, String.toList_join, String.toList_ofList,
    String.toList_ofList, List.flatMap_replicate, hindent, hjoin]
  rfl

/-- A leaf structures one thing only. -/
theorem Structural.text_eq {text' : String} (h : p.Structural text l)
    (h' : p.Structural text' l) : text = text' :=
  h.1.symm.trans h'.1

theorem gap_eq (p : Policy) (prev l : Node.Leaf) : p.gap prev l =
    if p.Structural closer l then .newline
    else if p.Structural ";" prev ∨ p.Structural opener prev then .newline
    else if p.Structural closer prev then if l.text = ";" then .none else .newline
    else if p.Structural opener l then .newline
    else if p.gluesAfter prev || p.gluesBefore l then .none
    else .space := by
  simp only [gap, Bool.or_eq_true, structures_iff]

theorem glued_iff : (p.gluesAfter prev || p.gluesBefore l) = true ↔ p.Glued prev l := by
  rw [Bool.or_eq_true, gluesAfter, gluesBefore, applies_iff, applies_iff, Glued]

theorem gap_of_ends (h : p.Ends prev l) : p.gap prev l = .none := by
  obtain ⟨hprev, hl⟩ := h
  have hclose : ¬ p.Structural closer l := fun h => absurd (h.1.symm.trans hl) (by decide)
  have hbefore : ¬ (p.Structural ";" prev ∨ p.Structural opener prev) := by
    rintro (h | h) <;> exact absurd (h.text_eq hprev) (by decide)
  rw [gap_eq, if_neg hclose, if_neg hbefore, if_pos hprev, if_pos hl]

theorem gap_of_breaks (h : p.Breaks prev l) (hends : ¬ p.Ends prev l) :
    p.gap prev l = .newline := by
  rw [gap_eq]
  split_ifs with hclose hbefore hprev hl hopen
  any_goals rfl
  · exact absurd ⟨hprev, hl⟩ hends
  all_goals
    exfalso
    rcases h with h | h | h | h | h
    exacts [hclose h, hopen h, hbefore (.inl h), hbefore (.inr h), hprev h]

theorem gap_of_not_breaks (h : ¬ p.Breaks prev l) :
    p.gap prev l = if p.gluesAfter prev || p.gluesBefore l then .none else .space := by
  have hbefore : ¬ (p.Structural ";" prev ∨ p.Structural opener prev) := by
    rintro (hprev | hprev)
    · exact h (.inr (.inr (.inl hprev)))
    · exact h (.inr (.inr (.inr (.inl hprev))))
  rw [gap_eq, if_neg fun hl => h (.inl hl), if_neg hbefore,
    if_neg fun hprev => h (.inr (.inr (.inr (.inr hprev)))), if_neg fun hl => h (.inr (.inl hl))]

/-- The gap between two leaves goes by the rules. -/
theorem between_gap (p : Policy) (depth : Nat) (prev l : Node.Leaf) :
    p.Between depth prev l ((p.gap prev l).render depth) where
  line h hends := by rw [gap_of_breaks h hends, render_newline]
  ends h := by rw [gap_of_ends h]; rfl
  glued h hglued := by rw [gap_of_not_breaks h, if_pos (glued_iff.2 hglued)]; rfl
  apart h hglued := by rw [gap_of_not_breaks h, if_neg fun h => hglued (glued_iff.1 h)]; rfl

/-! ## Gap by gap -/

/-- The gap before a leaf, by its place. -/
def gapAt (p : Policy) (leaves : List Node.Leaf) : Nat → String
  | 0 => ""
  | i + 1 =>
    match leaves[i]?, leaves[i + 1]? with
    | some prev, some l => (p.gap prev l).render (p.depthAt (leaves.take (i + 1)) l)
    | _, _ => ""

theorem gapAt_succ {leaves : List Node.Leaf} {i : Nat} (hprev : leaves[i]? = some prev)
    (hl : leaves[i + 1]? = some l) :
    p.gapAt leaves (i + 1) = (p.gap prev l).render (p.depthAt (leaves.take (i + 1)) l) := by
  simp only [gapAt, hprev, hl]

/-- The leaves after some others are printed with the gaps of the whole. -/
theorem emitLeaves_eq (before : List Node.Leaf) (prev : Node.Leaf) (rest : List Node.Leaf) :
    p.emitLeaves (p.openBlocks (before ++ [prev])) (some prev) rest =
      String.join (rest.mapIdx fun i l =>
        p.gapAt (before ++ prev :: rest) (before.length + 1 + i) ++ l.text) := by
  induction rest generalizing before prev with
  | nil => rfl
  | cons l rest ih =>
    have hwhole : before ++ prev :: l :: rest = (before ++ [prev]) ++ l :: rest := by simp
    have hgap : p.gapAt (before ++ prev :: l :: rest) (before.length + 1) =
        (p.gap prev l).render (p.depthAt (before ++ [prev]) l) := by
      have hprev : (before ++ prev :: l :: rest)[before.length]? = some prev := by simp
      have hl : (before ++ prev :: l :: rest)[before.length + 1]? = some l := by simp
      rw [gapAt_succ hprev hl, List.take_append, List.take_of_length_le (Nat.le_succ _),
        Nat.add_sub_cancel_left]
      rfl
    have hplace : ∀ i, before.length + 1 + 1 + i = before.length + 1 + (i + 1) := by omega
    have hrest := ih (before ++ [prev]) l
    rw [← hwhole, List.length_append, List.length_singleton, openBlocks_append_singleton] at hrest
    rw [emitLeaves, List.mapIdx_cons, String.join_cons, depthAfter_eq, hrest, depthBefore_eq,
      ← depthAt, Nat.add_zero, hgap]
    simp only [hplace]

/-- The printed form of a node is the texts of its leaves with a gap before each but the first,
    and a line break at the end unless that is no text at all. Every gap goes by the rules for
    the two leaves, at the depth that the leaves before it lead to. -/
theorem emit_layout (p : Policy) (n : Node) :
    n.visits.filterMap Node.Visit.leaf? = n.leaves ∧
      ∃ (gap : Nat → String) (text : String), gap 0 = "" ∧
        text = String.join (n.leaves.mapIdx fun i l => gap i ++ l.text) ∧
        p.emit n = (if text = "" then "" else text ++ "\n") ∧
        ∀ i prev l, n.leaves[i]? = some prev → n.leaves[i + 1]? = some l →
          p.Between (p.depthAt (n.leaves.take (i + 1)) l) prev l (gap (i + 1)) := by
  refine ⟨n.filterMap_visits, p.gapAt n.leaves, p.emitLeaves 0 none n.leaves, rfl, ?_, ?_,
    fun i prev l hprev hl => ?_⟩
  · cases n.leaves with
    | nil => rfl
    | cons l rest =>
      have hrest : p.emitLeaves (p.openAfter 0 l) (some l) rest = String.join
          (rest.mapIdx fun i l' => p.gapAt (l :: rest) (0 + 1 + i) ++ l'.text) :=
        emitLeaves_eq [] l rest
      rw [emitLeaves, depthAfter_eq, List.mapIdx_cons, String.join_cons, hrest]
      simp only [Nat.zero_add, Nat.add_comm 1]
      rfl
  · simp only [emit, String.isEmpty_iff]
  · rw [gapAt_succ hprev hl]
    exact between_gap ..

/-- A block with a statement in it, and the end of a statement after it. -/
def block : Node :=
  .tree ⟨0, 6⟩ 9 6 [.leaf ⟨0, 0⟩ 0 "f", .leaf ⟨0, 1⟩ 1 opener, .leaf ⟨0, 2⟩ 0 "x",
    .leaf ⟨0, 3⟩ 2 ";", .leaf ⟨0, 4⟩ 3 closer, .leaf ⟨0, 5⟩ 2 ";"]

/-- The block begins and ends on lines of its own. Both statements end without a gap, the first
    by glue and the second because it ends with a block. -/
theorem emit_layout_block : default.emit block = "f\n\x7b\n    x;\n\x7d;\n" := by
  obtain ⟨-, gap, text, hfirst, rfl, hemit, hgap⟩ := emit_layout default block
  have hopen : gap 1 = "\n" := (hgap 0 _ _ rfl rfl).line (by decide) (by decide)
  have hinside : gap 2 = "\n    " := (hgap 1 _ _ rfl rfl).line (by decide) (by decide)
  have hglued : gap 3 = "" := (hgap 2 _ _ rfl rfl).glued (by decide) (by decide)
  have hclose : gap 4 = "\n" := (hgap 3 _ _ rfl rfl).line (by decide) (by decide)
  have hend : gap 5 = "" := (hgap 4 _ _ rfl rfl).ends (by decide)
  have htext : String.join (block.leaves.mapIdx fun i l => gap i ++ l.text) =
      String.join [gap 0 ++ "f", gap 1 ++ opener, gap 2 ++ "x", gap 3 ++ ";", gap 4 ++ closer,
        gap 5 ++ ";"] := rfl
  rw [hemit, htext, hfirst, hopen, hinside, hglued, hclose, hend]
  decide +kernel

end Policy

end LanguageWorkbench
