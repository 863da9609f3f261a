import LanguageWorkbench.Proofs.Conservation
import LanguageWorkbench.Proofs.LocalPrograms
import LanguageWorkbench.Proofs.Printing
import LanguageWorkbench.Proofs.Realms

/-!
# Parsing what was printed

The leaves of a tree are the terminals it was parsed from. If a lexicon reads them back from
the printed tree, an automaton takes them again, and they build the same tree, whatever
realm its nodes are of.

Results:
* `Machine.tallies_of_feedAll`: the values of an automaton have the terminals as leaves.
* `Language.terminal?`: the terminal of a leaf.
* `Language.Parses.leaves`, `Language.Parses.again`: a parsed tree has the terminals of its
  text as leaves, and they build it again.
* `Language.ReadsBack`, `Language.Parses.terminalsOf_emit`: a tree whose runs of leaves are
  read back is printed with the terminals it was parsed from.
* `Language.reparse_of_emit`: a printed tree parses back to the same tree.
-/

namespace LanguageWorkbench

/-! ## Leaves are terminals -/

namespace Machine

variable {g : Lowered} {t : Table} {b : TreeBuilder} {a : Automaton} {store : Store}

/-- A terminal that is taken is shifted, unless it is `$end`. -/
theorem shifted_of_feed (hg : g.WellFormed) (ht : (Table.build g).result = .ok t) {x : Symbol}
    {text : String} (h : (feed ⟨g, t, b⟩ a store x text).outcome = .ok true) :
    (feed ⟨g, t, b⟩ a store x text).shifted x text =
      if x = endSymbol then [] else [(x, text)] := by
  obtain ⟨-, fuel, hrun⟩ := run_of_feed h
  rw [hrun] at h ⊢
  obtain ⟨-, c, last, -, hlast, hends⟩ := reductions_of_run h
  rw [Fed.shifted, h, hlast]
  generalize (run ⟨g, t, b⟩ x text fuel a store).automaton = a' at hends
  generalize (run ⟨g, t, b⟩ x text fuel a store).store = store' at hends
  cases hends with
  | accept _ haction => rw [if_pos ((Table.action_accept_iff ht).1 haction).1]
  | shift _ haction =>
    rw [if_neg (Collection.ne_of_target? hg ((Table.action_shift_iff hg ht).1 haction).2)]

theorem tallies_of_feedAll (hg : g.WellFormed) (ht : (Table.build g).result = .ok t)
    {w u : List Terminal} (hw : ∀ x ∈ w, x.1 ≠ endSymbol) (h : Tallies ⟨g, t, b⟩ (a, store) u)
    {a' : Automaton} {store' : Store} (hall : feedAll ⟨g, t, b⟩ a store w = some (a', store')) :
    Tallies ⟨g, t, b⟩ (a', store') (u ++ w) := by
  induction w generalizing a store u with
  | nil =>
    cases hall
    rwa [List.append_nil]
  | cons x w ih =>
    have hout := outcome_of_feedAll hall
    rw [feedAll_cons hout] at hall
    obtain ⟨hx, hw⟩ := List.forall_mem_cons.1 hw
    have hfed := h.feed hout
    rw [shifted_of_feed hg ht hout, if_neg hx] at hfed
    have := ih hw hfed hall
    rwa [List.append_assoc] at this

/-- The tree of an automaton that takes terminals and the end of the input has them as its
    leaves. -/
theorem word_of_end (hg : g.WellFormed) (ht : (Table.build g).result = .ok t)
    {w : List Terminal} (hw : ∀ x ∈ w, x.1 ≠ endSymbol) {realm : Nat} {text : String} {n : Node}
    (hall : feedAll ⟨g, t, b⟩ .initial (.empty realm) w = some (a, store))
    (hend : (feed ⟨g, t, b⟩ a store endSymbol text).outcome = .ok true)
    (hresult : (feed ⟨g, t, b⟩ a store endSymbol text).automaton.result? = some n) :
    n.word.map (fun l => (some (some l.1), l.2)) = w.map fun x => (b.terminals[x.1]?, x.2) := by
  have hwhole : feedAll ⟨g, t, b⟩ .initial (.empty realm) (w ++ [(endSymbol, text)]) =
      some ((feed ⟨g, t, b⟩ a store endSymbol text).automaton,
        (feed ⟨g, t, b⟩ a store endSymbol text).store) := by
    rw [feedAll_append, hall, Option.bind_some, feedAll_cons hend]
    rfl
  obtain ⟨-, -, value, -, -, -, hvalues⟩ := grows_of_feedAll hg ht hw hwhole
  have hinitial : Tallies ⟨g, t, b⟩ (.initial, .empty realm) [] :=
    ⟨Store.sound_empty realm, fun n hn => absurd hn List.not_mem_nil, rfl⟩
  have hword := ((tallies_of_feedAll hg ht hw hinitial hall).feed hend).word
  rw [shifted_of_feed hg ht hend, if_pos rfl, List.append_nil, List.nil_append, hvalues] at hword
  have hn : value = n := by
    rw [Automaton.result?, accepted_of_feed hg ht hend, hvalues] at hresult
    exact Option.some.inj hresult
  rwa [List.reverse_singleton, Node.wordOf, Node.wordOf, List.append_nil, hn] at hword

end Machine

/-! ## Terminals of leaves -/

theorem map_eq_map_of_imp {α β γ δ : Type} {f : α → γ} {g : β → γ} {f' : α → δ} {g' : β → δ}
    (himp : ∀ a b, f a = g b → f' a = g' b) {l : List α} {l' : List β} (h : l.map f = l'.map g) :
    l.map f' = l'.map g' := by
  induction l generalizing l' with
  | nil =>
    rw [List.map_eq_nil_iff.1 h.symm]
    rfl
  | cons a l ih =>
    obtain ⟨b, rest, rfl, hb, hrest⟩ := List.map_eq_cons_iff.1 h.symm
    rw [List.map_cons, List.map_cons, himp a b hb.symm, ih hrest.symm]

theorem map_eq_map_some {α β : Type} {f : α → Option β} {l : List α}
    (h : ∀ a ∈ l, ∃ b, f a = some b) : l.map f = (l.filterMap f).map some := by
  induction l with
  | nil => rfl
  | cons a l ih =>
    obtain ⟨⟨b, hb⟩, hl⟩ := List.forall_mem_cons.1 h
    rw [List.map_cons, List.filterMap_cons_some hb, List.map_cons, ih hl, hb]

theorem Lowered.symbol?_nameOf_of_terminal {g : Lowered} (h : g.names.Nodup) {x : Symbol}
    (hx : g.isTerminal x = true) : g.symbol? (g.nameOf x) = some x := by
  have hlt : x < g.terminals.size := of_decide_eq_true hx
  rw [symbol?_eq_some_iff h, names_getElem?_terminal hlt, nameOf, if_pos hx,
    Array.getElem?_eq_getElem hlt, Option.getD_some]

theorem Schema.nameOf_of_kind? {s : Schema} {name : String} {kind : Kind}
    (h : s.kind? name = some kind) : s.nameOf kind = name := by
  rw [kind?, Option.map_eq_some_iff] at h
  obtain ⟨⟨info, kind'⟩, hfind, rfl⟩ := h
  have hname := List.find?_some hfind
  have hmem := List.mem_of_find?_eq_some hfind
  rw [List.mem_reverse, List.mk_mem_zipIdx_iff_getElem?] at hmem
  rw [nameOf, ← Array.getElem?_toList, hmem]
  exact eq_of_beq hname

/-! ## Trees from terminals -/

namespace Language

variable {engine : RegexEngine} {source : String} {l : Language}

/-- The terminal of a leaf: the symbol with the name of its kind, and its text. -/
def terminal? (l : Language) (leaf : Node.Leaf) : Option Terminal :=
  (l.lowered.symbol? (l.schema.nameOf leaf.kind)).map (·, leaf.text)

/-- The terminals of a text. -/
def terminalsOf (l : Language) (text : List Char) : List Terminal :=
  (l.parser.lexicon.tokenize true (.start Parser.unnamedInput) text).tokens.map
    Lexicon.Token.terminal

theorem terminalsOf_eq (l : Language) (text : List Char) :
    l.terminalsOf text = Lexicon.terminals (l.parser.lexicon.pieces true text).1 := by
  rw [terminalsOf, Lexicon.tokenize_eq]
  exact Lexicon.map_terminal_tokensFrom _ _

/-- The terminals of a text are the same in any file. -/
theorem terminals_tokenize (l : Language) (file : String) (text : List Char) :
    (l.parser.lexicon.tokenize true (.start file) text).tokens.map Lexicon.Token.terminal =
      l.terminalsOf text := by
  rw [terminalsOf_eq, Lexicon.tokenize_eq]
  exact Lexicon.map_terminal_tokensFrom _ _

/-- What it takes to parse a text to a tree other than nothing. -/
structure Parses (l : Language) (text : String) (realm : Nat) (a : Automaton) (store : Store)
    (t : Node) : Prop where
  all : l.parser.machine.feedAll .initial (.empty realm) (l.terminalsOf text.toList) =
    some (a, store)
  held : (l.parser.lexicon.pieces true text.toList).2 = .held []
  outcome : (l.parser.machine.feed a store endSymbol "").outcome = .ok true
  result : (l.parser.machine.feed a store endSymbol "").automaton.result? = some t

theorem Parses.result_eq (hl : (compileWith engine source).result = .ok l) {text : String} {realm : Nat}
    {a : Automaton} {store : Store} {t : Node} (h : l.Parses text realm a store t) (file : String) :
    (l.parse file text realm).result = .ok t := by
  refine (onePass_spec hl rfl rfl file text realm).2 _ (.accepted ?_ ?_ h.outcome h.result)
  · rw [terminals_tokenize]
    exact h.all
  · simp [Lexicon.tokenize_eq, Lexicon.errorOf, h.held]

theorem exists_parses (hl : (compileWith engine source).result = .ok l) {file text : String} {realm : Nat}
    {t : Node} (h : (l.parse file text realm).result = .ok t) (hne : t ≠ .nothing) :
    ∃ a store, l.Parses text realm a store t := by
  obtain ⟨⟨r, hr⟩, hresult⟩ := onePass_spec hl rfl rfl file text realm
  obtain rfl : r = .ok t := (hresult r hr).symm.trans h
  cases hr with
  | accepted hall herror hend hresult =>
    rw [terminals_tokenize] at hall
    exact ⟨_, _, hall, (Lexicon.tokenize_of_error_none herror).1, hend, hresult⟩
  | nothing => exact absurd rfl hne

/-- The leaves of a tree are the terminals it was parsed from. -/
theorem Parses.leaves (hl : (compileWith engine source).result = .ok l) {text : String} {realm : Nat}
    {a : Automaton} {store : Store} {t : Node} (h : l.Parses text realm a store t) :
    t.leaves.map l.terminal? = (l.terminalsOf text.toList).map some := by
  obtain ⟨hload, hlowered, htable, hschema, lexicon, hlexicon, hparser⟩ := madeOf_of_compile hl
  obtain ⟨symbols, hlowers⟩ := Grammar.lowersTo_of_ofGrammar hlowered
  obtain ⟨hall, -, hend, hresult⟩ := h
  have htokens : ∀ x ∈ l.terminalsOf text.toList, x.1 ≠ endSymbol := by
    unfold terminalsOf
    rw [hparser]
    exact hlowers.ne_end_of_token hlexicon _ _
  have hmachine : l.parser.machine = ⟨l.lowered, l.table, .ofLowered l.lowered l.schema⟩ := by
    rw [hparser]
    rfl
  rw [hmachine] at hall hend hresult
  have hword := Machine.word_of_end hlowers.wellFormed htable htokens hall hend hresult
  rw [← Node.map_leavesUnder none t, List.map_map] at hword
  refine map_eq_map_of_imp (fun leaf x hleaf => ?_) hword
  obtain ⟨hkind, htext⟩ := Prod.mk.inj hleaf
  have hterminal : l.lowered.isTerminal x.1 = true := by
    have hlt := (Array.getElem?_eq_some_iff.1 hkind.symm).1
    rw [TreeBuilder.ofLowered, Array.size_map] at hlt
    exact decide_eq_true hlt
  rw [terminal?, Schema.nameOf_of_kind? (TreeBuilder.kind?_of_terminal hkind.symm),
    Lowered.symbol?_nameOf_of_terminal hlowers.numbers.nodup hterminal]
  exact congrArg some (Prod.ext rfl htext)

/-- The same terminals build the same tree from any text and in any realm. -/
theorem Parses.again {text text' : String} {realm : Nat} {a : Automaton} {store : Store} {t : Node}
    (h : l.Parses text realm a store t)
    (hterminals : l.terminalsOf text'.toList = l.terminalsOf text.toList)
    (hheld : (l.parser.lexicon.pieces true text'.toList).2 = .held []) (realm' : Nat) :
    ∃ τ : Equiv.Perm Nat, l.Parses text' realm' (a.rename τ) (store.rename τ) (t.rename τ) := by
  refine ⟨Equiv.swap realm realm', ?_, hheld, ?_, ?_⟩
  · have hall := l.parser.machine.feedAll_rename (Equiv.swap realm realm') .initial (.empty realm)
      (l.terminalsOf text.toList)
    rw [h.all, Store.rename_empty, Equiv.swap_apply_left] at hall
    rw [hterminals]
    exact hall
  · rw [Machine.feed_rename]
    exact h.outcome
  · rw [Machine.feed_rename, Machine.Fed.rename, Automaton.result?_rename, h.result]
    rfl

/-! ## Runs that are read back -/

theorem text_of_terminal? {leaf : Node.Leaf} {x : Terminal} (h : l.terminal? leaf = some x) :
    leaf.text = x.2 := by
  obtain ⟨_, -, rfl⟩ := Option.map_eq_some_iff.1 h
  rfl

theorem spelling_eq {run : List Node.Leaf} {ts : List Terminal}
    (h : run.map l.terminal? = ts.map some) : Lexicon.spelling ts = Policy.textOf run := by
  have htexts : run.map (fun leaf => leaf.text.toList) = ts.map fun x => x.2.toList :=
    map_eq_map_of_imp (fun leaf x hx => by rw [text_of_terminal? hx]) h
  rw [Lexicon.spelling, Policy.textOf, List.flatMap_def, List.flatMap_def, htexts]

/-- The text of leaves, followed by nothing or by a blank and more, has the leaves as its
    first terminals. -/
def ReadsBack (l : Language) (run : List Node.Leaf) : Prop :=
  ∀ rest : List Char, Lexicon.Parted rest →
    run.map l.terminal? <+: (l.terminalsOf (Policy.textOf run ++ rest)).map some

theorem readsBack_iff {run : List Node.Leaf} {ts : List Terminal}
    (h : run.map l.terminal? = ts.map some) :
    l.ReadsBack run ↔ l.parser.lexicon.Rereads ts := by
  unfold ReadsBack Lexicon.Rereads
  simp only [h, terminalsOf_eq, ← spelling_eq h,
    List.prefix_map_iff_of_injective (Option.some_injective _)]

theorem text_ne_of_mem_terminalsOf {text : List Char} {x : Terminal} (h : x ∈ l.terminalsOf text) :
    x.2 ≠ "" := by
  rw [terminalsOf_eq, Lexicon.mem_terminals] at h
  obtain ⟨piece, hpiece, -, hx⟩ := h
  obtain ⟨rest, hlongest⟩ := Lexicon.exists_longest_of_mem_pieces hpiece
  obtain ⟨hpos, -, -⟩ := Lexicon.longest_spec hlongest
  intro hempty
  have hlen := congrArg String.length (hx.trans hempty)
  rw [String.length_ofList] at hlen
  exact Nat.ne_of_gt hpos hlen

theorem Parses.exists_terminal (hl : (compileWith engine source).result = .ok l) {text : String} {realm : Nat}
    {a : Automaton} {store : Store} {t : Node} (h : l.Parses text realm a store t)
    {leaf : Node.Leaf} (hleaf : leaf ∈ t.leaves) :
    ∃ x ∈ l.terminalsOf text.toList, l.terminal? leaf = some x := by
  have hmem := List.mem_map_of_mem (f := l.terminal?) hleaf
  rw [h.leaves hl] at hmem
  obtain ⟨x, hx, heq⟩ := List.mem_map.1 hmem
  exact ⟨x, hx, heq.symm⟩

/-- A printed tree has the terminals that it was parsed from, if its runs are read back. -/
theorem Parses.terminalsOf_emit (hl : (compileWith engine source).result = .ok l) {text : String}
    {realm : Nat} {a : Automaton} {store : Store} {t : Node} (h : l.Parses text realm a store t)
    (policy : Policy) {word : Char → Bool} (hlocal : l.parser.lexicon.IsLocal word)
    (hblanks : l.parser.lexicon.SkipsBlanks) (hruns : ∀ run ∈ policy.runs t, l.ReadsBack run) :
    l.terminalsOf (policy.emit t).toList = l.terminalsOf text.toList ∧
      (l.parser.lexicon.pieces true (policy.emit t).toList).2 = .held [] := by
  have hflatten : (policy.runs t).flatten = t.leaves := List.flatten_splitBy _ _
  have htexts : ∀ leaf ∈ t.leaves, leaf.text ≠ "" := by
    intro leaf hleaf
    obtain ⟨x, hx, heq⟩ := h.exists_terminal hl hleaf
    rw [text_of_terminal? heq]
    exact text_ne_of_mem_terminalsOf hx
  have hmap : ∀ run : List Node.Leaf, (∀ leaf ∈ run, leaf ∈ t.leaves) →
      run.map l.terminal? = (run.filterMap l.terminal?).map some := by
    intro run hrun
    refine map_eq_map_some fun leaf hleaf => ?_
    obtain ⟨x, -, hx⟩ := h.exists_terminal hl (hrun leaf hleaf)
    exact ⟨x, hx⟩
  -- the terminals of each run are read back from its text
  have hrereads : List.Forall₂ (fun run ts => Lexicon.spelling ts = Policy.textOf run ∧ ts ≠ [] ∧
      l.parser.lexicon.Rereads ts) (policy.runs t)
      ((policy.runs t).map (List.filterMap l.terminal?)) := by
    rw [List.forall₂_map_right_iff, List.forall₂_same]
    intro run hrun
    have hrun' := hmap run fun leaf hleaf => hflatten ▸ List.mem_flatten_of_mem hrun hleaf
    refine ⟨spelling_eq hrun', ?_, (readsBack_iff hrun').1 (hruns run hrun)⟩
    intro hnil
    rw [hnil, List.map_nil, List.map_eq_nil_iff] at hrun'
    exact List.ne_nil_of_mem_splitBy hrun hrun'
  obtain ⟨hterminals, hheld, -⟩ := Lexicon.terminals_of_spaced hlocal hblanks
    (policy.spaced_emit t htexts) hrereads
  refine ⟨?_, hheld⟩
  rw [terminalsOf_eq, hterminals, ← List.filterMap_flatten, hflatten]
  refine List.map_injective_iff.2 (Option.some_injective _) ?_
  rw [← hmap t.leaves fun _ h => h, h.leaves hl]

end Language

/-! ## A lexicon of pairs -/

namespace Program

/-- Spaces and line feeds, in any order and number. -/
def ofBlanks : Program where
  code := #[.place .textStart 1, .split 2 3, .char (.single ' ') 1, .split 4 5,
    .char (.single '\n') 3, .split 1 6, .done]
  anchored := true

/-- A single character. -/
def ofChar (c : Char) : Program where
  code := #[.place .textStart 1, .char (.single c) 2, .done]
  anchored := true

theorem run_nil_threads (p : Program) (offset : Nat) (best : Option Nat) (text : List Char) :
    p.run offset best text [] = best := by
  cases text <;> rfl

/-- After each blank the same three threads wait. -/
theorem run_ofBlanks_cons {threads : List Nat} (h : threads = [2, 4, 6] ∨ threads = [4, 2, 6])
    (offset : Nat) (best : Option Nat) (d : Char) (rest : List Char) :
    ofBlanks.run offset best (d :: rest) threads = ofBlanks.run (offset + 1) (some offset) rest
      (if d = ' ' then [2, 4, 6] else if d = '\n' then [4, 2, 6] else []) := by
  by_cases hspace : d = ' '
  · subst hspace
    rcases h with rfl | rfl <;>
      simp [run, ofBlanks, isDone, take, follow, Threads.none, contains_single]
  · by_cases hline : d = '\n'
    · subst hline
      rcases h with rfl | rfl <;>
        simp [run, ofBlanks, isDone, take, follow, Threads.none, contains_single]
    · rcases h with rfl | rfl <;>
        simp [run, ofBlanks, isDone, take, Threads.none, contains_single, hspace, hline]

theorem run_ofBlanks {blanks rest : List Char} (hblanks : ∀ c ∈ blanks, Lexicon.Blank c)
    (hrest : ∀ c ∈ rest.head?, ¬ Lexicon.Blank c) {threads : List Nat}
    (h : threads = [2, 4, 6] ∨ threads = [4, 2, 6]) (offset : Nat) (best : Option Nat) :
    ofBlanks.run offset best (blanks ++ rest) threads = some (offset + blanks.length) := by
  induction blanks generalizing offset best threads with
  | nil =>
    cases rest with
    | nil => rcases h with rfl | rfl <;> rfl
    | cons d rest =>
      obtain ⟨hspace, hline⟩ := not_or.1 (hrest d rfl)
      rw [List.nil_append, run_ofBlanks_cons h, if_neg hspace, if_neg hline, run_nil_threads]
      rfl
  | cons b blanks ih =>
    obtain ⟨hb, hblanks⟩ := List.forall_mem_cons.1 hblanks
    have hthreads : ∀ threads' : List Nat, threads' = [2, 4, 6] ∨ threads' = [4, 2, 6] →
        ofBlanks.run (offset + 1) (some offset) (blanks ++ rest) threads' =
          some (offset + (b :: blanks).length) := by
      intro threads' h'
      rw [ih hblanks h', List.length_cons, Nat.add_right_comm]
      rfl
    rw [List.cons_append, run_ofBlanks_cons h]
    rcases hb with rfl | rfl
    · exact hthreads _ (.inl (if_pos rfl))
    · exact hthreads _ (.inr rfl)

/-- Searching from the start of a text is running the threads that wait there. -/
theorem find_eq_run {p : Program} (hp : p.anchored = true) {text : List Char} {threads : List Nat}
    (h : (p.follow (.start text) (p.code.size + 1) .none 0).waiting.reverse = threads) :
    p.find text = p.run 0 none text threads := by
  rw [find, if_pos hp, List.findSome?_cons, findAt, h, Cursor.start]
  cases p.run 0 none text threads <;> rfl

theorem find_ofBlanks {blanks rest : List Char} (hblanks : ∀ c ∈ blanks, Lexicon.Blank c)
    (hrest : ∀ c ∈ rest.head?, ¬ Lexicon.Blank c) :
    ofBlanks.find (blanks ++ rest) = some blanks.length := by
  have hstart : (ofBlanks.follow (.start (blanks ++ rest)) 8 .none 0).waiting.reverse = [2, 4, 6] := by
    simp [ofBlanks, follow, Threads.none, Place.holds, Cursor.start]
  rw [find_eq_run rfl hstart, run_ofBlanks hblanks hrest (.inl rfl), Nat.zero_add]

theorem find_ofChar (c : Char) (text : List Char) :
    (ofChar c).find text = if text.head? = some c then some 1 else none := by
  have hstart : ((ofChar c).follow (.start text) 4 .none 0).waiting.reverse = [1] := by
    simp [ofChar, follow, Threads.none, Place.holds, Cursor.start]
  have hdone : ∀ rest, (ofChar c).run 1 none rest [2] = some 1 := by
    intro rest
    cases rest <;> rfl
  rw [find_eq_run rfl hstart]
  cases text with
  | nil => rfl
  | cons d rest =>
    by_cases hd : d = c
    · rw [hd, List.head?_cons, if_pos rfl, ← hdone rest]
      simp [run, ofChar, isDone, take, follow, Threads.none, contains_single]
    · rw [List.head?_cons, if_neg fun h => hd (Option.some.inj h)]
      simp [run, ofChar, isDone, take, Threads.none, contains_single, hd, run_nil_threads]

end Program

namespace Lexicon

/-- Blanks, and the characters of a pair. -/
def ofPairs : Lexicon :=
  ⟨[⟨none, [Program.ofBlanks.regex]⟩, ⟨some 1, [(Program.ofChar 'a').regex]⟩,
    ⟨some 2, [(Program.ofChar ';').regex]⟩]⟩

/-- A pattern with nothing to split is compiled to its program. -/
theorem compile_of_program {line : Nat} {pattern : String} {p : Program}
    (hbranches : branches? pattern.toList = none)
    (hp : Pattern.compile (Regex.atStart pattern.toList) = .ok p) :
    compile Pattern.engine line pattern = .ok [p.regex] := by
  simp only [compile, anchored, Pattern.engine, hp, hbranches]
  rfl

/-- The lexicon of a grammar with these sources is the one above. -/
theorem eq_ofPairs {g : Grammar} {lowered : Lowered} {l : Lexicon}
    (h : (ofGrammarWith Pattern.engine g lowered).result = .ok l)
    (hsources : sources g lowered =
      [⟨none, 2, "(?:\\x20*\\n*)+"⟩, ⟨some 1, 3, "a"⟩, ⟨some 2, 4, ";"⟩]) : l = ofPairs := by
  have hentries := compiledFrom_of_ofGrammar h
  rw [hsources] at hentries
  have hblanks : compile Pattern.engine 2 "(?:\\x20*\\n*)+" = .ok [Program.ofBlanks.regex] :=
    compile_of_program (by decide +kernel) (by decide +kernel)
  have ha : compile Pattern.engine 3 "a" = .ok [(Program.ofChar 'a').regex] :=
    compile_of_program (by decide +kernel) (by decide +kernel)
  have hsemi : compile Pattern.engine 4 ";" = .ok [(Program.ofChar ';').regex] :=
    compile_of_program (by decide +kernel) (by decide +kernel)
  obtain ⟨entries⟩ := l
  rcases hentries with _ | ⟨hfirst, _ | ⟨hsecond, _ | ⟨hthird, _ | _⟩⟩⟩
  rw [hfirst.eq hblanks, hsecond.eq ha, hthird.eq hsemi]
  rfl

theorem matchLength_single (symbol : Option Symbol) (r : Regex) (text : List Char) :
    matchLength ⟨symbol, [r]⟩ text = (r.find text).getD 0 := by
  unfold matchLength
  cases hfind : r.find text <;> simp [hfind]

theorem skipsBlanks_ofPairs : ofPairs.SkipsBlanks := by
  intro blanks rest hne hblanks hrest
  obtain ⟨b, blanks, rfl⟩ := List.exists_cons_of_ne_nil hne
  have hb := hblanks b List.mem_cons_self
  have hother : ∀ c, ¬ Blank c → (Program.ofChar c).find (b :: blanks ++ rest) = none := by
    intro c hc
    rw [Program.find_ofChar, List.cons_append, List.head?_cons, if_neg]
    rintro h
    exact hc (Option.some.inj h ▸ hb)
  simp only [longest, ofPairs, List.foldl_cons, List.foldl_nil, matchLength_single,
    Program.regex, Program.find_ofBlanks hblanks hrest, hother 'a' (by decide), hother ';' (by decide)]
  simp [better]

/-- The terminals of a pair. -/
def InPair (t : Terminal) : Prop := t = (1, "a") ∨ t = (2, ";")

instance : DecidablePred InPair := fun t =>
  inferInstanceAs (Decidable (t = (1, "a") ∨ t = (2, ";")))

theorem longest_ofPairs {t : Terminal} (ht : InPair t) (text : List Char) :
    ofPairs.longest (t.2.toList ++ text) = some (some t.1, t.2.toList.length) := by
  have hblanks : ∀ c, ¬ Blank c → Program.ofBlanks.find (c :: text) = some 0 := by
    intro c hc
    have hskip : Program.ofBlanks.find ([] ++ c :: text) = some [].length :=
      Program.find_ofBlanks nofun fun d hd => Option.some.inj hd ▸ hc
    exact hskip
  rcases ht with rfl | rfl
  · simp [longest, ofPairs, matchLength_single, Program.regex, hblanks 'a' (by decide),
      Program.find_ofChar, better]
  · simp [longest, ofPairs, matchLength_single, Program.regex, hblanks ';' (by decide),
      Program.find_ofChar, better]

/-- All that is written with the characters of a pair is read back. -/
theorem rereads_ofPairs {ts : List Terminal} (hts : ∀ t ∈ ts, InPair t) : ofPairs.Rereads ts := by
  intro rest _
  induction ts with
  | nil => exact List.nil_prefix
  | cons t ts ih =>
    obtain ⟨ht, hts⟩ := List.forall_mem_cons.1 hts
    rw [spelling_cons, List.append_assoc, pieces_of_longest (longest_ofPairs ht _) (.inl rfl),
      List.take_left, List.drop_left, terminals_token]
    exact List.cons_prefix_cons.2 ⟨rfl, ih hts⟩

end Lexicon

namespace Language

variable {engine : RegexEngine} {source : String} {l : Language}

/-! ## The main result -/

theorem isLocal_lexicon {word : Char → Bool} (hengine : engine.IsLocal word)
    (hl : (compileWith engine source).result = .ok l) : l.parser.lexicon.IsLocal word := by
  obtain ⟨-, -, -, -, lexicon, hlexicon, hparser⟩ := madeOf_of_compile hl
  rw [hparser]
  exact Lexicon.isLocal_of_ofGrammar hengine hlexicon

/-- A tree that a language parsed is printed by any policy to a text that parses back to
    the same tree, in any file and realm, if the lexicon skips blanks and reads back what
    the policy prints without gaps, whatever blanks and more follow. Of the engine it is used
    that matches do not depend on what is beyond the next character. -/
theorem reparse_of_emit {word : Char → Bool} (hengine : engine.IsLocal word)
    (hl : (compileWith engine source).result = .ok l) {file text : String} {realm : Nat}
    {t : Node} (ht : (l.parse file text realm).result = .ok t) (hne : t ≠ .nothing)
    (policy : Policy) (hblanks : l.parser.lexicon.SkipsBlanks)
    (hruns : ∀ run ∈ policy.runs t, l.ReadsBack run) (file' : String) (realm' : Nat) :
    ∃ t', (l.parse file' (policy.emit t) realm').result = .ok t' ∧ t'.equal t = true := by
  obtain ⟨a, store, hparses⟩ := exists_parses hl ht hne
  obtain ⟨hterminals, hheld⟩ :=
    hparses.terminalsOf_emit hl policy (isLocal_lexicon hengine hl) hblanks hruns
  obtain ⟨τ, hagain⟩ := hparses.again hterminals hheld realm'
  exact ⟨t.rename τ, hagain.result_eq hl file', t.rename_equal τ⟩

/-- A grammar of pairs with a semicolon in between. -/
def pairs : String :=
  "language pairs\nwhitespace (?:\\x20*\\n*)+\nkeyword a\nsymbol ';' semi\nstart pair\n" ++
    "pair:\n    a ';' a\n"

/-- A pair is printed on two lines and read again. -/
theorem reparse_of_emit_pairs : ∃ l t, Pattern.engine.IsLocal (Place.isWord true) ∧
    (compileWith Pattern.engine pairs).result = .ok l ∧
    (l.parse "in" "a;a" 1).result = .ok t ∧ t ≠ .nothing ∧ l.parser.lexicon.SkipsBlanks ∧
    (∀ run ∈ Policy.default.runs t, l.ReadsBack run) ∧ Policy.default.emit t = "a;\na\n" ∧
    ∃ t', (l.parse "out" (Policy.default.emit t) 2).result = .ok t' ∧ t'.equal t = true := by
  have hok : ((compileWith Pattern.engine pairs).result.toOption.any fun l =>
      decide (Lexicon.sources l.grammar l.lowered =
        [⟨none, 2, "(?:\\x20*\\n*)+"⟩, ⟨some 1, 3, "a"⟩, ⟨some 2, 4, ";"⟩]) &&
        (l.parse "in" "a;a" 1).result.toOption.any fun t =>
          !t.isNothing && decide (Policy.default.emit t = "a;\na\n") &&
            decide ((Policy.default.runs t).map (·.map l.terminal?) =
              [[(1, "a"), (2, ";")], [(1, "a")]].map (List.map some))) = true := by
    decide +kernel
  obtain ⟨l, hl, hok⟩ := any_toOption_iff.1 hok
  rw [Bool.and_eq_true, decide_eq_true_eq] at hok
  obtain ⟨hsources, hok⟩ := hok
  obtain ⟨t, ht, hok⟩ := any_toOption_iff.1 hok
  simp only [Bool.and_eq_true, decide_eq_true_eq] at hok
  obtain ⟨⟨hsome, hemit⟩, hruns⟩ := hok
  have hne : t ≠ .nothing := by
    rintro rfl
    cases hsome
  obtain ⟨-, -, -, -, lexicon, hlexicon, hparser⟩ := madeOf_of_compile hl
  have hpairs : l.parser.lexicon = .ofPairs := by
    rw [hparser]
    exact Lexicon.eq_ofPairs hlexicon hsources
  have hblanks : l.parser.lexicon.SkipsBlanks := hpairs ▸ Lexicon.skipsBlanks_ofPairs
  have hreads : ∀ run ∈ Policy.default.runs t, l.ReadsBack run := by
    intro run hrun
    have hmem := List.mem_map_of_mem (f := List.map l.terminal?) hrun
    rw [hruns] at hmem
    obtain ⟨ts, hts, hmap⟩ := List.mem_map.1 hmem
    refine (readsBack_iff hmap.symm).2 (hpairs ▸ Lexicon.rereads_ofPairs ?_)
    have hall : ∀ ts ∈ [[((1 : Symbol), "a"), (2, ";")], [(1, "a")]], ∀ t ∈ ts, Lexicon.InPair t := by
      decide
    exact hall ts hts
  exact ⟨l, t, Pattern.isLocal, hl, ht, hne, hblanks, hreads, hemit,
    reparse_of_emit Pattern.isLocal hl ht hne Policy.default hblanks hreads "out" 2⟩

end Language

end LanguageWorkbench
