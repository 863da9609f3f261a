import LanguageWorkbench.Policy
import LanguageWorkbench.Proofs.Rereading
import Mathlib.Data.List.SplitBy

/-!
# The shape of printed trees

A printed tree is its runs of leaves with nothing in between, each followed by spaces and
line feeds.

Results:
* `Policy.runs`: the maximal runs of leaves that are printed without a gap.
* `Policy.Spaced`, `Policy.spaced_emit`: a printed tree is its runs, apart by blanks.
* `Lexicon.terminals_of_spaced`: runs that are read from their texts are read back.
-/

namespace LanguageWorkbench

open Lexicon (Blank Parted)

namespace Policy

variable {p : Policy}

/-- The leaves of a node in maximal runs that are printed without a gap. -/
def runs (p : Policy) (n : Node) : List (List Node.Leaf) :=
  n.leaves.splitBy fun prev l => p.gap prev l = .none

/-- The texts of leaves one after the other. -/
def textOf (run : List Node.Leaf) : List Char := run.flatMap fun l => l.text.toList

/-- Runs of leaves one after the other, with blanks after each of them. -/
inductive Spaced : List (List Node.Leaf) → List Char → Prop
  | nil : Spaced [] []
  | cons {run : List Node.Leaf} {runs : List (List Node.Leaf)} {blanks text : List Char}
      (hne : blanks ≠ []) (hblanks : ∀ c ∈ blanks, Blank c) (h : Spaced runs text) :
      Spaced (run :: runs) (textOf run ++ (blanks ++ text))

/-! ## Gaps -/

theorem blank_of_mem_render {gap : Gap} {depth : Nat} :
    ∀ c ∈ (gap.render depth).toList, Blank c := by
  intro c hc
  cases gap with
  | none => cases hc
  | space => exact .inl (by simpa [Gap.render] using hc)
  | newline =>
    rw [Gap.render, String.toList_append, List.mem_append, String.toList_join] at hc
    rcases hc with hc | hc
    · exact .inr (List.mem_singleton.1 hc)
    · obtain ⟨indent, hindent, hc⟩ := List.mem_flatMap.1 hc
      rw [List.eq_of_mem_replicate hindent] at hc
      exact .inl (by simpa using hc)

theorem render_ne_nil {gap : Gap} (depth : Nat) (h : gap ≠ .none) :
    (gap.render depth).toList ≠ [] := by
  cases gap with
  | none => exact absurd rfl h
  | space => simp [Gap.render]
  | newline => simp [Gap.render]

/-! ## Runs -/

theorem toList_emitLeaves (depth : Nat) (prev l : Node.Leaf) (rest : List Node.Leaf) :
    (p.emitLeaves depth (some prev) (l :: rest)).toList =
      ((p.gap prev l).render (p.depthBefore depth l)).toList ++
        (l.text.toList ++ (p.emitLeaves (p.depthAfter depth l) (some l) rest).toList) := by
  simp [emitLeaves]

/-- The leaves of a run are printed without a gap. -/
theorem exists_emitLeaves_run (rest : List Node.Leaf) (run : List Node.Leaf) (l : Node.Leaf)
    (depth : Nat) (h : (l :: run).IsChain fun prev l => p.gap prev l = .none) :
    ∃ depth', (p.emitLeaves depth (some l) (run ++ rest)).toList =
      textOf run ++ (p.emitLeaves depth' (some ((l :: run).getLast (by simp))) rest).toList := by
  induction run generalizing l depth with
  | nil => exact ⟨depth, rfl⟩
  | cons l' run ih =>
    obtain ⟨hgap, hrun⟩ := List.isChain_cons_cons.1 h
    obtain ⟨depth', ih⟩ := ih l' (p.depthAfter depth l') hrun
    refine ⟨depth', ?_⟩
    rw [List.cons_append, toList_emitLeaves, hgap, ih, List.getLast_cons_cons]
    simp [Gap.render, textOf]

/-- Runs apart by gaps are printed with blanks after each of them. -/
theorem spaced_emitLeaves (runs : List (List Node.Leaf)) (l : Node.Leaf) (run : List Node.Leaf)
    (depth : Nat) (hne : [] ∉ runs)
    (hruns : ∀ r ∈ (l :: run) :: runs, r.IsChain fun prev l => p.gap prev l = .none)
    (hgaps : ((l :: run) :: runs).IsChain fun r r' =>
      ∃ h h', ¬ p.gap (r.getLast h) (r'.head h') = .none) :
    Spaced ((l :: run) :: runs)
      (l.text.toList ++ ((p.emitLeaves depth (some l) (run ++ runs.flatten)).toList ++ ['\n'])) := by
  have hrun : ∀ text, l.text.toList ++ (textOf run ++ text) = textOf (l :: run) ++ text := by
    simp [textOf]
  induction runs generalizing l run depth with
  | nil =>
    obtain ⟨depth', h⟩ := exists_emitLeaves_run [] run l depth (hruns _ List.mem_cons_self)
    have hlast : Spaced [l :: run] (textOf (l :: run) ++ (['\n'] ++ [])) :=
      .cons (by simp) (by simp [Blank]) .nil
    rw [List.flatten_nil, h, List.append_assoc, hrun]
    simpa [emitLeaves] using hlast
  | cons run' runs ih =>
    obtain ⟨depth', h⟩ := exists_emitLeaves_run (run' :: runs).flatten run l depth
      (hruns _ List.mem_cons_self)
    cases run' with
    | nil => exact absurd List.mem_cons_self hne
    | cons l' run' =>
      obtain ⟨⟨_, _, hgap⟩, hgaps⟩ := List.isChain_cons_cons.1 hgaps
      have hrest := ih l' run' (p.depthAfter depth' l') (fun h => hne (List.mem_cons_of_mem _ h))
        (fun r hr => hruns r (List.mem_cons_of_mem _ hr)) hgaps (by simp [textOf])
      rw [h, List.append_assoc, hrun, List.flatten_cons, List.cons_append, toList_emitLeaves,
        List.append_assoc, List.append_assoc]
      exact .cons (render_ne_nil _ hgap) blank_of_mem_render hrest

/-- A printed node is its runs, with blanks after each of them. -/
theorem spaced_emit (p : Policy) (n : Node) (htexts : ∀ l ∈ n.leaves, l.text ≠ "") :
    Spaced (p.runs n) (p.emit n).toList := by
  cases hruns : p.runs n with
  | nil =>
    have hleaves : n.leaves = [] := List.splitBy_eq_nil.1 hruns
    simp [emit, hleaves, emitLeaves, Spaced.nil]
  | cons run runs =>
    cases run with
    | nil => exact absurd (hruns ▸ List.mem_cons_self) (List.nil_notMem_splitBy _ _)
    | cons l run =>
      have hleaves : n.leaves = l :: (run ++ runs.flatten) := by
        rw [← List.cons_append, ← List.flatten_cons, ← hruns]
        exact (List.flatten_splitBy _ _).symm
      have hspaced := spaced_emitLeaves runs l run (p.depthAfter 0 l)
        (fun h => List.nil_notMem_splitBy _ n.leaves (hruns ▸ List.mem_cons_of_mem _ h))
        (fun r hr => by simpa using List.isChain_of_mem_splitBy (hruns.symm ▸ hr : r ∈ p.runs n))
        (by
          have := List.isChain_getLast_head_splitBy (fun prev l => p.gap prev l = .none) n.leaves
          rw [show List.splitBy _ n.leaves = _ from hruns] at this
          simpa using this)
      have htext : l.text ≠ "" := htexts l (by rw [hleaves]; exact List.mem_cons_self)
      have hemit : (p.emit n).toList = l.text.toList ++
          ((p.emitLeaves (p.depthAfter 0 l) (some l) (run ++ runs.flatten)).toList ++ ['\n']) := by
        simp [emit, hleaves, emitLeaves, htext]
      rwa [hemit]

end Policy

/-! ## Reading runs -/

namespace Lexicon

variable {word : Char → Bool} {l : Lexicon}

/-- Runs that are read from their texts are read back from a printed tree, and nothing is
    left of it. -/
theorem terminals_of_spaced (hlocal : l.IsLocal word) (hspaces : l.SkipsBlanks)
    {runs : List (List Node.Leaf)} {text : List Char} (h : Policy.Spaced runs text)
    {tss : List (List Terminal)}
    (hruns : List.Forall₂ (fun run ts => spelling ts = Policy.textOf run ∧ ts ≠ [] ∧ l.Rereads ts)
      runs tss) :
    terminals (l.pieces true text).1 = tss.flatten ∧ (l.pieces true text).2 = .held [] ∧
      ∀ c ∈ text.head?, ¬ Blank c := by
  induction h generalizing tss with
  | nil =>
    cases hruns
    exact ⟨rfl, rfl, nofun⟩
  | @cons run runs blanks text hne hblanks _ ih =>
    cases hruns with
    | @cons _ ts _ tss hrun hruns =>
      obtain ⟨hspelling, hts, hreads⟩ := hrun
      obtain ⟨hterminals, hheld, hhead⟩ := ih hruns
      have hparted : Parted (blanks ++ text) :=
        Parted.append (fun c hc => hblanks c (List.mem_of_mem_head? hc)) hne text
      have hskip := pieces_of_longest (hspaces blanks text hne hblanks hhead)
        (.inl rfl : true = true ∨ _)
      rw [List.take_left, List.drop_left] at hskip
      rw [← hspelling, (hreads.terminals_append hlocal hspaces hparted).1,
        (hreads.terminals_append hlocal hspaces hparted).2, hskip]
      refine ⟨?_, hheld, ?_⟩
      · show ts ++ terminals (l.pieces true text).1 = _
        rw [hterminals, List.flatten_cons]
      · obtain ⟨t, ts, rfl⟩ := List.exists_cons_of_ne_nil hts
        rw [List.head?_append_of_ne_nil _ hreads.spelling_ne_nil]
        exact hreads.head_not_blank hspaces

end Lexicon

end LanguageWorkbench
