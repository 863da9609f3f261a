import LanguageWorkbench.NatSet
import Mathlib.Data.Finset.Card
import Mathlib.Tactic.Common

/-!
# Saturation reaches a fixed point

`saturate` repeats a step for a bounded number of rounds. Where every round that
changes something makes a measure grow, and the measure is bounded, enough rounds
end in a value that the step leaves alone.

Results:
* `saturate_fixed`: the value after more rounds than the measure allows is fixed.
* `saturate_induction`: what every step keeps holds of the value in the end.
* `Saturates`, `saturates_of_fixed`: repeating the step without a bound ends there too.
* `NatSet.count`: the number of members below a bound, the measure of most uses.
-/

namespace LanguageWorkbench

variable {α : Type} [DecidableEq α] {f : α → α} {P : α → Prop}

/-- What every step keeps holds of the value in the end. -/
theorem saturate_induction (h : ∀ a, P a → P (f a)) :
    ∀ (rounds : Nat) (a : α), P a → P (saturate f rounds a) := by
  intro rounds
  induction rounds with
  | zero => intro a ha; exact ha
  | succ rounds ih =>
    intro a ha
    simp only [saturate]
    split_ifs
    · exact ha
    · exact ih _ (h a ha)

theorem saturate_fixed_of_measure (measure : α → Nat) {n : Nat}
    (h : ∀ a, P a → P (f a)) (hlt : ∀ a, P a → f a ≠ a → measure a < measure (f a))
    (hle : ∀ a, P a → measure a ≤ n) :
    ∀ (rounds : Nat) (a : α), P a → n < measure a + rounds →
      f (saturate f rounds a) = saturate f rounds a := by
  intro rounds
  induction rounds with
  | zero => intro a ha hr; have := hle a ha; omega
  | succ rounds ih =>
    intro a ha hr
    simp only [saturate]
    split_ifs with hs
    · exact hs
    · have := hlt a ha hs
      exact ih _ (h a ha) (by omega)

/-- More rounds than the bound of the measure end in a fixed point. -/
theorem saturate_fixed (measure : α → Nat) {n rounds : Nat} {a : α} (ha : P a)
    (h : ∀ a, P a → P (f a)) (hlt : ∀ a, P a → f a ≠ a → measure a < measure (f a))
    (hle : ∀ a, P a → measure a ≤ n) (hr : n < rounds) :
    f (saturate f rounds a) = saturate f rounds a :=
  saturate_fixed_of_measure measure h hlt hle rounds a ha (by omega)

/-- `Saturates f a b`: repeating `f` from `a` until it changes nothing ends, and with `b`. -/
inductive Saturates {α : Type} (f : α → α) : α → α → Prop
  | done {a : α} (h : f a = a) : Saturates f a a
  | round {a b : α} (h : f a ≠ a) (hrest : Saturates f (f a) b) : Saturates f a b

/-- Rounds that end in a fixed point are those that an unbounded loop makes. -/
theorem saturates_of_fixed {rounds : Nat} {a : α}
    (h : f (saturate f rounds a) = saturate f rounds a) :
    Saturates f a (saturate f rounds a) := by
  induction rounds generalizing a with
  | zero => exact .done h
  | succ rounds ih =>
    simp only [saturate] at h ⊢
    split_ifs at h ⊢ with hs
    · exact .done hs
    · exact .round hs (ih h)

/-! ## Counting members -/

namespace NatSet

/-- Every member of one set is a member of the other. -/
def Subset (s t : NatSet) : Prop := ∀ n, n ∈ s → n ∈ t

/-- All members are below a bound. -/
def Below (s : NatSet) (bound : Nat) : Prop := ∀ n, n ∈ s → n < bound

/-- The members below a bound. -/
def members (s : NatSet) (bound : Nat) : Finset Nat := (Finset.range bound).filter (· ∈ s)

/-- The number of members below a bound. -/
def count (s : NatSet) (bound : Nat) : Nat := (s.members bound).card

theorem mem_members {s : NatSet} {bound n : Nat} : n ∈ s.members bound ↔ n < bound ∧ n ∈ s := by
  simp [members]

theorem count_le (s : NatSet) (bound : Nat) : s.count bound ≤ bound := by
  have := Finset.card_filter_le (Finset.range bound) (· ∈ s)
  rwa [Finset.card_range] at this

theorem Subset.count_le {s t : NatSet} (h : s.Subset t) (bound : Nat) :
    s.count bound ≤ t.count bound :=
  Finset.card_le_card fun n hn => by
    rw [mem_members] at hn ⊢
    exact ⟨hn.1, h n hn.2⟩

theorem Subset.count_lt {s t : NatSet} (h : s.Subset t) {bound : Nat} (ht : t.Below bound)
    (hne : t ≠ s) : s.count bound < t.count bound := by
  obtain ⟨n, hn, hns⟩ : ∃ n, n ∈ t ∧ n ∉ s := by
    by_contra hall
    push Not at hall
    exact hne (ext fun n => ⟨hall n, h n⟩)
  refine Finset.card_lt_card ((Finset.ssubset_iff_of_subset ?_).2 ⟨n, ?_, ?_⟩)
  · intro m hm
    rw [mem_members] at hm ⊢
    exact ⟨hm.1, h m hm.2⟩
  · exact mem_members.2 ⟨ht n hn, hn⟩
  · exact fun hm => hns (mem_members.1 hm).2

theorem Below.union {s t : NatSet} {bound : Nat} (hs : s.Below bound) (ht : t.Below bound) :
    (s.union t).Below bound := by
  intro n hn
  rcases mem_union.1 hn with hn | hn
  · exact hs n hn
  · exact ht n hn

theorem below_empty (bound : Nat) : empty.Below bound := fun n hn => absurd hn (not_mem_empty n)

theorem below_singleton {n bound : Nat} (h : n < bound) : (singleton n).Below bound := by
  intro m hm
  rw [mem_singleton.1 hm]
  exact h

end NatSet

end LanguageWorkbench
