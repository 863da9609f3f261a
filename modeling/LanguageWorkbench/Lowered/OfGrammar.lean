import LanguageWorkbench.Grammar.Basic
import LanguageWorkbench.Lowered.Basic
import LanguageWorkbench.Note

/-!
# Lowering grammars

A grammar becomes a lowered grammar whose nonterminals are its named sequences,
its alternatives and its lists. Options, aliases, dependents and anonymous
sequences disappear: a sequence has one production for each way to leave out
optional bits, and the derivation records which were left out.

* `Grammar.readings`: the ways to read one bit, absent or as a symbol.
* `Grammar.choices`: the ways to read a list of bits; a dependent bit is absent
  exactly when the bit before it is.
* `Lowered.ofGrammar`: the lowered grammar. Of two productions with the same sides
  the first counts.
-/

namespace LanguageWorkbench

/-! ## Choices -/

/-- One way to read a bit of a sequence. -/
inductive Reading where
  | absent
  | present (s : Symbol)
  /-- There is no such way, for this reason. -/
  | refused (f : Failure)
deriving DecidableEq, Repr

/-- The symbols that rules have in the lowered grammar. -/
abbrev SymbolMap := List (RuleId × Symbol)

namespace Grammar

/-- The ways to read the bit `id`, in the order in which they are tried. An option
    is first left out and then read as its child, an alias is read as its child, and
    a dependent is absent if the bit before it is. A chain of more links than there
    are rules has no end. -/
def readings (g : Grammar) (symbols : SymbolMap) (afterAbsent : Bool) : Nat → RuleId → List Reading
  | 0, id => [.refused (.fault (.endlessLinks (g.nameOf id)))]
  | fuel + 1, id =>
    match g.shape? id with
    | none => [.refused (.fault (.outOfRange g.size id))]
    | some (.aliasOf child) => g.readings symbols afterAbsent fuel child
    | some (.option child) => .absent :: g.readings symbols afterAbsent fuel child
    | some (.dependent child) =>
      if afterAbsent then [.absent] else g.readings symbols afterAbsent fuel child
    | some (.separator _) | some (.delimiter _) =>
      [.refused (.grammar (g.lineOf id) (.repetition (g.nameOf id)))]
    | some (.sequence _ true) => [.refused (.fault (.anonymousElement (g.nameOf id)))]
    | some (.term ..) | some (.sequence _ false) | some (.alternative _) | some (.plus _) =>
      match symbols.lookup id with
      | some s => [.present s]
      | none => [.refused (.fault .missingEntry)]

/-- The ways to read a list of bits, each as the list of symbols with nothing for an
    absent bit. They come in the order of the readings of the first bit, and a
    refused reading counts when its turn comes. -/
def choices (g : Grammar) (symbols : SymbolMap) :
    Bool → List RuleId → Except Failure (List (List (Option Symbol)))
  | _, [] => .ok [[]]
  | afterAbsent, bit :: bits => do
    let branches ← (g.readings symbols afterAbsent (g.size + 1) bit).mapM fun
      | .absent => return (← g.choices symbols true bits).map (none :: ·)
      | .present s => return (← g.choices symbols false bits).map (some s :: ·)
      | .refused f => throw f
    return branches.flatten

/-- The symbols of a choice. -/
def presentSymbols (choice : List (Option Symbol)) : List Symbol := choice.filterMap id

/-- The places of a choice, from `place` on, that are absent. -/
def absentPlaces (place : Nat) : List (Option Symbol) → List Nat
  | [] => []
  | none :: rest => place :: absentPlaces (place + 1) rest
  | some _ :: rest => absentPlaces (place + 1) rest

/-- The bits that an alternative line, a sequence or a list stands for: those of the
    anonymous sequence if it is the only bit. -/
def inlineBits (g : Grammar) (bits : List RuleId) : List RuleId :=
  match bits with
  | [only] =>
    match g.shape? only with
    | some (.sequence inner true) => inner
    | _ => bits
  | _ => bits

/-! ## Rules with symbols -/

/-- Whether a rule has a nonterminal in the lowered grammar. -/
def hasNonterminal : Shape → Bool
  | .sequence _ anonymous => !anonymous
  | .alternative _ | .plus _ => true
  | _ => false

/-- The start rule behind aliases and outer options, and the notes on the options. -/
def startRule (g : Grammar) : Nat → RuleId → Noted RuleId
  | 0, id => throw (.fault (.endlessLinks (g.nameOf id)))
  | fuel + 1, id =>
    match g.shape? id with
    | some (.aliasOf child) => g.startRule fuel child
    | some (.option child) => do
      .tell .debug ("start rule '" ++ g.nameOf id ++ "' is optional, using its child")
      g.startRule fuel child
    | _ => return id

/-- Adds the terms, each with its symbol. -/
def addTerms (lowered : Lowered) (symbols : SymbolMap) :
    List (Rule × RuleId) → Except Fault (Lowered × SymbolMap)
  | [] => .ok (lowered, symbols)
  | (rule, id) :: rest => do
    let s := lowered.terminals.size
    addTerms (← lowered.addTerminal rule.name) ((id, s) :: symbols) rest

/-- Adds the rules that have nonterminals, each with its symbol. -/
def addNonterminals (lowered : Lowered) (symbols : SymbolMap) :
    List (Rule × RuleId) → Except Fault (Lowered × SymbolMap)
  | [] => .ok (lowered, symbols)
  | (rule, id) :: rest =>
    if hasNonterminal rule.shape then do
      let s := lowered.numSymbols
      addNonterminals (← lowered.addNonterminal rule.name) ((id, s) :: symbols) rest
    else addNonterminals lowered symbols rest

/-- The symbols of the lowered grammar: `$end`, the terms, `$accept`, and the rules
    that have nonterminals. -/
def symbols (g : Grammar) : Except Fault (Lowered × SymbolMap) := do
  let lowered ← Lowered.empty.addTerminal "$end"
  let (lowered, symbols) ← addTerms lowered [] g.terms
  let lowered ← lowered.addNonterminal "$accept"
  addNonterminals lowered symbols g.numbered

/-! ## Productions -/

/-- What one rule adds: the rule on the left, the bits on the right and the rule
    whose node is built. A list is its child, or itself followed by its child. -/
def contributions (rule : Rule) (id : RuleId) : List (RuleId × List RuleId × RuleId) :=
  match rule.shape with
  | .sequence bits false => [(id, bits, id)]
  | .alternative bits => bits.map fun bit => (id, [bit], bit)
  | .plus child => [(id, [child], id), (id, [id, child], id)]
  | _ => []

/-- Adds a production, or a warning if there is one with the same sides. -/
def addUnlessKnown (g : Grammar) (lowered : Lowered) (p : Production) (d : Derivation) :
    Noted Lowered := do
  match lowered.productions.toList.findIdx? (· == p) with
  | some known =>
    let name := ((lowered.derivations[known]?).map (·.name)).getD ""
    let message := "coalescing duplicate production " ++ lowered.renderProduction p ++
      " ('" ++ name ++ "' and '" ++ d.name ++ "')"
    .tell .warn (g.language.dash ++ ": " ++ message)
    return { lowered with warnings := lowered.warnings ++ [message] }
  | none =>
    .tell .debug
      (g.language.dash ++ ": " ++ lowered.renderProduction p ++ " [" ++ d.render ++ "]")
    return lowered.addProduction p d

/-- Adds the productions for one choice after another. -/
def addChoices (g : Grammar) (lhs : Symbol) (built : RuleId) (lowered : Lowered) :
    List (List (Option Symbol)) → Noted Lowered
  | [] => return lowered
  | choice :: rest => do
    let derivation :=
      ⟨g.nameOf built, some built, absentPlaces 0 choice, g.collapse.contains built⟩
    let lowered ← g.addUnlessKnown lowered ⟨lhs, presentSymbols choice⟩ derivation
    g.addChoices lhs built lowered rest

/-- Adds the productions of contributions. -/
def addContributions (g : Grammar) (symbols : SymbolMap) (lowered : Lowered) :
    List (RuleId × List RuleId × RuleId) → Noted Lowered
  | [] => return lowered
  | (id, bits, built) :: rest => do
    let found ← .ofResult (g.choices symbols false (g.inlineBits bits))
    let some lhs := symbols.lookup id | throw (.fault .missingEntry)
    g.addContributions symbols (← g.addChoices lhs built lowered found) rest

/-- Adds the productions of rules. Separated and delimited repetition has none. -/
def addRules (g : Grammar) (symbols : SymbolMap) (lowered : Lowered) :
    List (Rule × RuleId) → Noted Lowered
  | [] => return lowered
  | (rule, id) :: rest => do
    match rule.shape with
    | .separator _ | .delimiter _ => throw (.grammar rule.line (.repetition rule.name))
    | _ =>
      g.addRules symbols (← g.addContributions symbols lowered (contributions rule id)) rest

end Grammar

/-- Lowers a grammar. -/
def Lowered.ofGrammar (g : Grammar) : Noted Lowered := do
  let (lowered, symbols) ← .ofResult (g.symbols.mapError .fault)
  let startRule ← g.startRule (g.size + 1) g.start
  let some start := symbols.lookup startRule
    | throw (.grammar (g.lineOf g.start) (.badStart (g.nameOf g.start)))
  let lowered :=
    lowered.addProduction ⟨lowered.accept, [start, endSymbol]⟩ (.plain "$accept")
  let lowered ← g.addRules symbols lowered g.numbered
  .ofResult (lowered.checkStart.mapError .fault)
  return lowered

end LanguageWorkbench
