import LanguageWorkbench.Lowered.Basic
import Mathlib.Logic.Relation
import Mathlib.Tactic.Common

/-!
# Derivations of lowered grammars

A list of symbols derives another by replacing left sides of productions by their
right sides. A parse tree records such a derivation: its leaves are terminals with
their texts, and every other node is labelled with the production that was used.

Results:
* `derives_iff_grows`: a symbol derives a list of terminals iff some parse tree
  grows from the symbol to these terminals.
-/

namespace LanguageWorkbench

/-- A terminal with the text that was read for it. -/
abbrev Terminal := Symbol × String

/-! ## Rewriting -/

/-- One occurrence of a left side is replaced by the right side of its production. -/
inductive Lowered.Rewrites (g : Lowered) : List Symbol → List Symbol → Prop
  | replace {p : Nat} {production : Production} (before after : List Symbol)
      (h : g.productions[p]? = some production) :
      g.Rewrites (before ++ production.lhs :: after) (before ++ (production.rhs ++ after))

/-- Any number of replacements. -/
def Lowered.Derives (g : Lowered) : List Symbol → List Symbol → Prop :=
  Relation.ReflTransGen g.Rewrites

/-! ## Parse trees -/

/-- A tree over the productions of a grammar, given by their numbers. -/
inductive ParseTree where
  | leaf (terminal : Symbol) (text : String)
  | node (production : Nat) (children : List ParseTree)

mutual

/-- `g.Grows t s w`: the tree `t` grows from the symbol `s`, and its leaves from left
    to right are `w`. -/
inductive Lowered.Grows (g : Lowered) : ParseTree → Symbol → List Terminal → Prop
  | leaf {s : Symbol} {text : String} (h : g.isTerminal s = true) :
      g.Grows (.leaf s text) s [(s, text)]
  | node {p : Nat} {production : Production} {ts : List ParseTree} {w : List Terminal}
      (h : g.productions[p]? = some production) (hs : g.GrowsAll ts production.rhs w) :
      g.Grows (.node p ts) production.lhs w

/-- Trees side by side grow from the symbols of a list, one from each. -/
inductive Lowered.GrowsAll (g : Lowered) : List ParseTree → List Symbol → List Terminal → Prop
  | nil : g.GrowsAll [] [] []
  | cons {t : ParseTree} {s : Symbol} {u : List Terminal} {ts : List ParseTree}
      {ss : List Symbol} {v : List Terminal} (h : g.Grows t s u) (hs : g.GrowsAll ts ss v) :
      g.GrowsAll (t :: ts) (s :: ss) (u ++ v)

end

namespace Lowered

variable {g : Lowered}

/-! ## Trees side by side -/

theorem growsAll_singleton {t : ParseTree} {s : Symbol} {w : List Terminal} :
    g.GrowsAll [t] [s] w ↔ g.Grows t s w := by
  constructor
  · intro h
    cases h with
    | cons h hs => cases hs; simpa using h
  · intro h
    simpa using GrowsAll.cons h .nil

theorem GrowsAll.append {ts us : List ParseTree} {ss rs : List Symbol} {u v : List Terminal}
    (h : g.GrowsAll ts ss u) (h' : g.GrowsAll us rs v) :
    g.GrowsAll (ts ++ us) (ss ++ rs) (u ++ v) := by
  induction ts generalizing ss u with
  | nil => cases h; exact h'
  | cons t ts ih =>
    cases h with
    | cons ht hts =>
      rw [List.append_assoc]
      exact .cons ht (ih hts)

/-- Trees that grow from two lists one after the other fall into two parts. -/
theorem GrowsAll.split {ts : List ParseTree} {ss rs : List Symbol} {w : List Terminal}
    (h : g.GrowsAll ts (ss ++ rs) w) :
    ∃ us vs u v, ts = us ++ vs ∧ w = u ++ v ∧ g.GrowsAll us ss u ∧ g.GrowsAll vs rs v := by
  induction ss generalizing ts w with
  | nil => exact ⟨[], ts, [], w, rfl, rfl, .nil, h⟩
  | cons s ss ih =>
    cases h with
    | cons ht hts =>
      obtain ⟨us, vs, u, v, rfl, rfl, hus, hvs⟩ := ih hts
      exact ⟨_ :: us, vs, _, v, rfl, (List.append_assoc ..).symm, .cons ht hus, hvs⟩

theorem GrowsAll.length_eq {ts : List ParseTree} {ss : List Symbol} {w : List Terminal}
    (h : g.GrowsAll ts ss w) : ts.length = ss.length := by
  induction ts generalizing ss w with
  | nil => cases h; rfl
  | cons t ts ih =>
    cases h with
    | cons _ hts => simp [ih hts]

mutual

/-- All leaves of a tree are terminals. -/
theorem Grows.isTerminal {t : ParseTree} {s : Symbol} {w : List Terminal} :
    g.Grows t s w → ∀ x ∈ w, g.isTerminal x.1 = true
  | .leaf h => by simpa using h
  | .node _ hs => hs.isTerminal

theorem GrowsAll.isTerminal {ts : List ParseTree} {ss : List Symbol} {w : List Terminal} :
    g.GrowsAll ts ss w → ∀ x ∈ w, g.isTerminal x.1 = true
  | .nil => by simp
  | .cons h hs => by
    intro x hx
    rcases List.mem_append.1 hx with hx | hx
    · exact h.isTerminal x hx
    · exact hs.isTerminal x hx

end

/-! ## Derivations as trees -/

theorem Rewrites.append_left {a b : List Symbol} (c : List Symbol) (h : g.Rewrites a b) :
    g.Rewrites (c ++ a) (c ++ b) := by
  obtain ⟨before, after, h⟩ := h
  simpa using Rewrites.replace (c ++ before) after h

theorem Rewrites.append_right {a b : List Symbol} (c : List Symbol) (h : g.Rewrites a b) :
    g.Rewrites (a ++ c) (b ++ c) := by
  obtain ⟨before, after, h⟩ := h
  simpa using Rewrites.replace before (after ++ c) h

theorem Derives.append {a b c d : List Symbol} (h : g.Derives a b) (h' : g.Derives c d) :
    g.Derives (a ++ c) (b ++ d) :=
  (h.lift (· ++ c) fun _ _ => .append_right c).trans (h'.lift (b ++ ·) fun _ _ => .append_left b)

mutual

theorem Grows.derives {t : ParseTree} {s : Symbol} {w : List Terminal} :
    g.Grows t s w → g.Derives [s] (w.map Prod.fst)
  | .leaf _ => .refl
  | .node h hs => by
    have := Rewrites.replace [] [] h
    rw [List.append_nil] at this
    exact .head this hs.derives

theorem GrowsAll.derives {ts : List ParseTree} {ss : List Symbol} {w : List Terminal} :
    g.GrowsAll ts ss w → g.Derives ss (w.map Prod.fst)
  | .nil => .refl
  | .cons h hs => by
    rw [List.map_append]
    exact h.derives.append hs.derives

end

theorem exists_growsAll_terminals {w : List Terminal} (hw : ∀ x ∈ w, g.isTerminal x.1 = true) :
    ∃ ts, g.GrowsAll ts (w.map Prod.fst) w := by
  induction w with
  | nil => exact ⟨[], .nil⟩
  | cons x w ih =>
    obtain ⟨ts, hts⟩ := ih fun y hy => hw y (List.mem_cons_of_mem x hy)
    exact ⟨_, .cons (.leaf (hw x List.mem_cons_self)) hts⟩

/-- What grows from the outcome of a replacement grows from what was there before. -/
theorem Rewrites.exists_growsAll {a b : List Symbol} (h : g.Rewrites a b) {ts : List ParseTree}
    {w : List Terminal} (hts : g.GrowsAll ts b w) : ∃ us, g.GrowsAll us a w := by
  obtain ⟨before, after, h⟩ := h
  obtain ⟨us, vs, u, v, rfl, rfl, hus, hvs⟩ := hts.split
  obtain ⟨ms, rs, m, r, rfl, rfl, hms, hrs⟩ := hvs.split
  exact ⟨_, hus.append (.cons (.node h hms) hrs)⟩

theorem Derives.exists_growsAll {a : List Symbol} {w : List Terminal}
    (hw : ∀ x ∈ w, g.isTerminal x.1 = true) (h : g.Derives a (w.map Prod.fst)) :
    ∃ ts, g.GrowsAll ts a w := by
  induction h using Relation.ReflTransGen.head_induction_on with
  | refl => exact exists_growsAll_terminals hw
  | head h _ ih =>
    obtain ⟨ts, hts⟩ := ih
    exact h.exists_growsAll hts

/-- A symbol derives a list of terminals iff a parse tree grows from the symbol to
    these terminals, whatever texts they come with. -/
theorem derives_iff_grows {s : Symbol} {w : List Terminal}
    (hw : ∀ x ∈ w, g.isTerminal x.1 = true) :
    g.Derives [s] (w.map Prod.fst) ↔ ∃ t, g.Grows t s w := by
  constructor
  · intro h
    obtain ⟨ts, hts⟩ := Derives.exists_growsAll hw h
    cases hts with
    | cons ht hnil =>
      cases hnil
      exact ⟨_, by simpa using ht⟩
  · rintro ⟨t, ht⟩
    exact ht.derives

end Lowered

end LanguageWorkbench
