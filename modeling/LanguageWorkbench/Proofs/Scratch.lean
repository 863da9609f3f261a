import LanguageWorkbench.Automaton
import Mathlib.Tactic.Common

/-!
# Scratch stacks stand for copies

A check leaves the state stack alone and remembers how much of it is left, and what
was pushed since. That stands for a copy of the stack that is popped and pushed:
whatever a reduction cuts, the part that was pushed, the part below or both, both
come to the same.

Results:
* `Scratch.view`: the stack that a scratch stack stands for.
* `Scratch.top?_eq`, `Scratch.pop?_eq_none_iff`, `Scratch.view_pop?`: its operations.
* `Machine.checkFrom_eq`: a check answers as if it worked on a copy.
-/

namespace LanguageWorkbench

namespace Scratch

/-- The stack that a scratch stack stands for, top first. -/
def view (states : List Nat) (s : Scratch) : List Nat :=
  s.extra ++ states.drop (states.length - s.depth)

/-- Some of the states below are left, the last one at least. -/
structure Over (s : Scratch) (states : List Nat) : Prop where
  pos : 0 < s.depth
  le : s.depth ≤ states.length

variable {s s' : Scratch} {states : List Nat} {n : Nat}

theorem view_whole (states : List Nat) : (whole states).view states = states := by
  simp [view, whole]

theorem over_whole (h : states ≠ []) : (whole states).Over states :=
  ⟨List.length_pos_iff.2 h, Nat.le_refl _⟩

theorem view_push (state : Nat) : (s.push state).view states = state :: s.view states := rfl

theorem Over.push (h : s.Over states) (state : Nat) : (s.push state).Over states := ⟨h.pos, h.le⟩

theorem length_view (h : s.Over states) : (s.view states).length = s.extra.length + s.depth := by
  have := h.le
  rw [view, List.length_append, List.length_drop]
  omega

theorem view_ne_nil (h : s.Over states) : s.view states ≠ [] := by
  have := length_view h
  have := h.pos
  exact List.ne_nil_of_length_pos (by omega)

theorem top?_eq : s.top? states = (s.view states).head? := by
  unfold top? view
  cases s.extra with
  | nil => rw [List.nil_append, List.head?_drop]
  | cons top extra => rfl

/-- A pop is refused exactly if it would take all that is left. -/
theorem pop?_eq_none_iff (h : s.Over states) :
    s.pop? n = none ↔ (s.view states).drop n = [] := by
  have hpos := h.pos
  rw [List.drop_eq_nil_iff, length_view h]
  simp only [pop?]
  split_ifs with hn
  · simp only [true_iff]
    omega
  · simp only [false_iff]
    omega

/-- A pop takes the states on top, no matter in which part they are. -/
theorem view_pop? (h : s.Over states) (hs : s.pop? n = some s') :
    s'.Over states ∧ s'.view states = (s.view states).drop n := by
  have hle := h.le
  simp only [pop?] at hs
  split_ifs at hs with hn
  obtain rfl := Option.some.inj hs
  refine ⟨⟨by simp only; omega, by simp only; omega⟩, ?_⟩
  simp only [view]
  rw [List.drop_append, List.drop_drop]
  congr 1
  · -- beyond the pushed part, a drop takes all of it
    rcases Nat.le_total n s.extra.length with hle' | hle'
    · rw [Nat.min_eq_left hle']
    · rw [Nat.min_eq_right hle', List.drop_eq_nil_of_le (Nat.le_refl _),
        List.drop_eq_nil_of_le hle']
  · congr 1
    omega

end Scratch

namespace Machine

/-- A check on a copy of the state stack. -/
def checkStack (m : Machine) (terminal : Symbol) : Nat → List Nat → Except Fault Bool
  | 0, _ => .error .endlessReductions
  | _ + 1, [] => .error .emptyStack
  | fuel + 1, top :: below => do
    match ← m.table.action top terminal with
    | .shift _ | .accept => return true
    | .error => return false
    | .reduce p =>
      let production ← m.production p
      match (top :: below).drop production.rhs.length with
      | [] => return false
      | state :: rest =>
        match ← m.table.goto? state production.lhs with
        | none => return false
        | some next => m.checkStack terminal fuel (next :: state :: rest)

variable {m : Machine} {x : Symbol}

/-- A check answers as if it worked on a copy of the stack. -/
theorem checkFrom_eq {states : List Nat} : ∀ {fuel : Nat} {s : Scratch}, s.Over states →
    m.checkFrom x states fuel s = m.checkStack x fuel (s.view states) := by
  intro fuel
  induction fuel with
  | zero => intro s _; rfl
  | succ fuel ih =>
    intro s h
    obtain ⟨top, below, hview⟩ := List.exists_cons_of_ne_nil (Scratch.view_ne_nil h)
    simp only [checkFrom, checkRound, checkStack, Scratch.top?_eq, hview, List.head?_cons,
      bind, Except.bind, pure, Except.pure]
    cases haction : m.table.action top x with
    | error f => rfl
    | ok action =>
      cases action with
      | shift | accept | error => rfl
      | reduce p =>
        simp only
        cases hp : m.production p with
        | error f => rfl
        | ok production =>
          simp only
          cases hpop : s.pop? production.rhs.length with
          | none =>
            rw [Scratch.pop?_eq_none_iff h, hview] at hpop
            simp only [hpop]
          -- the copy pops from its own states first and then from those it stands over
          | some popped =>
            obtain ⟨hover, hpopped⟩ := Scratch.view_pop? h hpop
            rw [hview] at hpopped
            obtain ⟨state, rest, hrest⟩ :=
              List.exists_cons_of_ne_nil (Scratch.view_ne_nil hover)
            simp only [← hpopped, hrest, List.head?_cons]
            cases m.table.goto? state production.lhs with
            | error f => rfl
            | ok next =>
              cases next with
              | none => rfl
              | some next =>
                simp only
                rw [ih (hover.push next), Scratch.view_push, hrest]

/-- Checking an automaton is checking a copy of its stack. -/
theorem check_eq {a : Automaton} (h : a.states ≠ []) :
    m.check a x = m.checkStack x (m.bound a.states.length) a.states := by
  rw [check, checkFrom_eq (Scratch.over_whole h), Scratch.view_whole]

end Machine

end LanguageWorkbench
