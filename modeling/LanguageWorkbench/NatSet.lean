/-!
# Sets of numbers

Finite sets of natural numbers, one bit for each member. Symbols, rules and
productions are numbered, so these are the sets that the analyses compute with.

* `mem_union`, `mem_insert`, `mem_ofList`: membership, operation by operation.
* `ext`: sets with the same members are equal.
* `saturate` repeats a step until nothing changes.
* `reachable`, `inferredVia`: what links lead to, and what can be inferred along them.
-/

namespace LanguageWorkbench

/-- A finite set of numbers. Bit `n` of `bits` says whether `n` is a member. -/
structure NatSet where
  bits : Nat
deriving DecidableEq, Repr

namespace NatSet

/-- The set without members. -/
def empty : NatSet := ⟨0⟩

/-- Whether `n` is a member. -/
def contains (s : NatSet) (n : Nat) : Bool := s.bits.testBit n

instance : Membership Nat NatSet := ⟨fun s n => s.contains n = true⟩

instance (n : Nat) (s : NatSet) : Decidable (n ∈ s) :=
  inferInstanceAs (Decidable (s.contains n = true))

/-- The members of both sets. -/
def union (s t : NatSet) : NatSet := ⟨s.bits ||| t.bits⟩

/-- The set with one member. -/
def singleton (n : Nat) : NatSet := ⟨1 <<< n⟩

/-- The set with `n` added. -/
def insert (s : NatSet) (n : Nat) : NatSet := s.union (singleton n)

/-- The numbers of a list. -/
def ofList (ns : List Nat) : NatSet := ns.foldl insert empty

/-- The members below `bound`, ascending. -/
def toList (s : NatSet) (bound : Nat) : List Nat := (List.range bound).filter s.contains

/-! ## Membership -/

theorem mem_def {n : Nat} {s : NatSet} : n ∈ s ↔ s.bits.testBit n = true := Iff.rfl

@[simp] theorem not_mem_empty (n : Nat) : n ∉ empty := by simp [mem_def, empty]

@[simp] theorem mem_union {n : Nat} {s t : NatSet} : n ∈ s.union t ↔ n ∈ s ∨ n ∈ t := by
  simp [mem_def, union]

@[simp] theorem mem_singleton {n m : Nat} : n ∈ singleton m ↔ n = m := by
  simp only [mem_def, singleton, Nat.shiftLeft_eq, Nat.one_mul, Nat.testBit_two_pow,
    decide_eq_true_eq]
  exact eq_comm

@[simp] theorem mem_insert {n m : Nat} {s : NatSet} : n ∈ s.insert m ↔ n ∈ s ∨ n = m := by
  simp [insert]

theorem mem_toList {n bound : Nat} {s : NatSet} : n ∈ s.toList bound ↔ n < bound ∧ n ∈ s := by
  simp [toList, mem_def, contains]

theorem mem_foldl_insert {n : Nat} {ns : List Nat} {s : NatSet} :
    n ∈ ns.foldl insert s ↔ n ∈ s ∨ n ∈ ns := by
  induction ns generalizing s with
  | nil => simp
  | cons m ns ih => simp [ih, or_assoc]

@[simp] theorem mem_ofList {n : Nat} {ns : List Nat} : n ∈ ofList ns ↔ n ∈ ns := by
  simp [ofList, mem_foldl_insert]

theorem ext {s t : NatSet} (h : ∀ n, n ∈ s ↔ n ∈ t) : s = t := by
  cases s; cases t
  congr
  refine Nat.eq_of_testBit_eq fun n => ?_
  exact Bool.eq_iff_iff.2 (h n)

end NatSet

/-- Repeats `step` until it changes nothing, at most `rounds` times. -/
def saturate {α : Type} [DecidableEq α] (step : α → α) : Nat → α → α
  | 0, a => a
  | rounds + 1, a =>
    let next := step a
    if next = a then a else saturate step rounds next

/-! ## Reachability -/

/-- The nodes visited, last first, when `node` is visited after `visited`: the node
    itself and then, from the first link to the last, what each link leads to.
    Every nested call visits a new node, so `fuel` need only exceed the number of
    nodes. -/
def visit (links : Nat → List Nat) : Nat → List Nat → Nat → List Nat
  | 0, visited, _ => visited
  | fuel + 1, visited, node =>
    if node ∈ visited then visited
    else (links node).foldl (visit links fuel) (node :: visited)

/-- The nodes that links lead to from `start`, which comes first, among `count`
    nodes. A node comes before the nodes that its links lead to. -/
def reachable (links : Nat → List Nat) (count start : Nat) : List Nat :=
  (visit links (count + 1) [] start).reverse

/-! ## Asking along paths -/

/-- Whether `node` has a property that `step` infers from the nodes that have it, asked for
    by way of the nodes of `path`. A node that is met again has not: it would only repeat
    the question. Every nested call asks about a new node, so `fuel` need only exceed the
    number of nodes. -/
def inferredVia (step : (Nat → Bool) → Nat → Bool) : Nat → List Nat → Nat → Bool
  | 0, _, _ => false
  | fuel + 1, path, node =>
    !path.contains node && step (inferredVia step fuel (node :: path)) node

end LanguageWorkbench
