import LanguageWorkbench.Proofs.UniqueNames

/-!
# Reading without faults

A fault is a broken contract between the parts of a language. Resolving names breaks none
once they are checked: every name that is looked up is there. And in a grammar that was read
every number is that of a rule.

Results:
* `Flawless`: a step that does not end in a fault.
* `Grammar.flawless_read`, `Grammar.flawless_load`: reading and loading a text.
* `Grammar.Closed`, `Grammar.closed_of_read`: the numbers in a grammar that was read.
* `Grammar.whole_or_alternative_of_read`, `Grammar.head_name_ne_of_read`: where lines stand,
  and what the names of the other rules begin with.
-/

namespace LanguageWorkbench

/-! ## Steps without faults -/

/-- A step that has a result or ends in an error. -/
def Flawless {α : Type} (r : Except Failure α) : Prop := ∀ f, r ≠ .error (.fault f)

namespace Flawless

variable {α β : Type} {r : Except Failure α}

theorem ok (a : α) : Flawless (.ok a : Except Failure α) := fun _ h => nomatch h

theorem error (e : Error) : Flawless (.error (.error e) : Except Failure α) := fun _ h => nomatch h

theorem of_ok {a : α} (h : r = .ok a) : Flawless r := h ▸ ok a

theorem mapError {ε : Type} {f : ε → Failure} (hf : ∀ e fault, f e ≠ .fault fault)
    (x : Except ε α) : Flawless (x.mapError f) := by
  cases x with
  | error e => exact fun fault h => hf e fault (Except.error.inj h)
  | ok a => exact ok a

theorem mapError_error (x : Except Error α) : Flawless (x.mapError .error) :=
  mapError (fun _ _ => Failure.noConfusion) x

theorem bind {f : α → Except Failure β} (h : Flawless r)
    (hf : ∀ a, r = .ok a → Flawless (f a)) : Flawless (r >>= f) := by
  cases r with
  | error e => exact fun f he => h f (by cases he; rfl)
  | ok a => exact hf a rfl

theorem map {f : α → β} (h : Flawless r) : Flawless (r.map f) := by
  cases r with
  | error e => exact fun f he => h f (by cases he; rfl)
  | ok a => exact ok (f a)

theorem mapM {f : α → Except Failure β} {l : List α} (h : ∀ a ∈ l, Flawless (f a)) :
    Flawless (l.mapM f) := by
  induction l with
  | nil => exact ok []
  | cons a l ih =>
    obtain ⟨ha, hl⟩ := List.forall_mem_cons.1 h
    rw [List.mapM_cons]
    exact ha.bind fun b _ => (ih hl).bind fun bs _ => ok (b :: bs)

/-- The same for steps that leave notes. -/
theorem noted_bind {x : Noted α} {f : α → Noted β} (h : Flawless x.result)
    (hf : ∀ a, x.result = .ok a → Flawless (f a).result) : Flawless (x >>= f).result := by
  rw [Noted.result_bind]
  exact h.bind hf

end Flawless

theorem exists_mapM {ε α β : Type} {f : α → Except ε β} {l : List α}
    (h : ∀ a ∈ l, ∃ b, f a = .ok b) : ∃ bs, l.mapM f = .ok bs := by
  induction l with
  | nil => exact ⟨[], rfl⟩
  | cons a l ih =>
    obtain ⟨⟨b, hb⟩, hl⟩ := List.forall_mem_cons.1 h
    obtain ⟨bs, hbs⟩ := ih hl
    refine ⟨b :: bs, mapM_eq_ok_iff.2 (.cons hb (mapM_eq_ok_iff.1 hbs))⟩

/-! ## Reading -/

open Source

/-- A suffix and quotes do not put a dollar sign in front of a name. -/
theorem Source.Element.head_visual_ne {e : Element} (h : e.name.toList.head? ≠ some '$') :
    e.visual.toList.head? ≠ some '$' := by
  have hbase : (if e.quoted then "'" ++ e.name ++ "'" else e.name).toList.head? ≠ some '$' := by
    split
    · simp
    · exact h
  unfold visual
  cases e.suffix with
  | none => exact h
  | some suffix =>
    rw [String.toList_push, List.head?_append]
    cases hhead : (if e.quoted then "'" ++ e.name ++ "'" else e.name).toList.head? with
    | none => cases suffix <;> decide
    | some c => exact fun heq => hbase (hhead.trans heq)

namespace Arena

variable {a : Arena} {name : String} {id : RuleId}

theorem exists_find (h : (a.names.lookup name).isSome = true) : ∃ id, a.find name = .ok id := by
  obtain ⟨id, hid⟩ := Option.isSome_iff_exists.1 h
  exact ⟨id, by rw [find, hid]⟩

/-- What is found is a rule. -/
theorem Sound.lt_of_lookup (h : a.Sound) (hlookup : a.names.lookup name = some id) :
    id < a.rules.size := by
  obtain ⟨r, hr, -⟩ := h.named (mem_of_lookup hlookup)
  exact (Array.getElem?_eq_some_iff.1 hr).1

theorem Sound.lt_of_find (h : a.Sound) (hfind : a.find name = .ok id) : id < a.rules.size := by
  unfold find at hfind
  split at hfind
  · rename_i hlookup
    cases hfind
    exact h.lt_of_lookup hlookup
  · cases hfind

end Arena

namespace Grammar

/-- Checked names are resolved to a grammar. -/
theorem exists_ofSource {s : Source} (hread : ∀ decl ∈ s.rules, ∀ line ∈ decl.body, line.Read)
    (h : checkNames s = .ok ()) : ∃ g, ofSource s = .ok g := by
  obtain ⟨declared, nodes, a, -, hresolved, hstart, hcollapse, hspacing⟩ :=
    resolved_of_checkNames hread h
  have hknown := hresolved.registered.known
  obtain ⟨start, hstart⟩ := Arena.exists_find (hknown _ (.inl hstart))
  obtain ⟨collapse, hcollapse⟩ := exists_mapM (f := fun m : Mention => a.find m.name) fun m hm =>
    Arena.exists_find (hknown _ (.inr (hcollapse m hm)))
  obtain ⟨spacing, hspacing⟩ := exists_mapM
    (f := fun d : SpacingDecl => return (⟨d.kind, d.text, ← d.parents.mapM a.find⟩ : Spacing))
    fun d hd => by
      obtain ⟨parents, hparents⟩ := exists_mapM fun parent hparent =>
        Arena.exists_find (hknown _ (.inr (hspacing d hd parent hparent)))
      exact ⟨_, bind_eq_ok_iff.2 ⟨parents, hparents, rfl⟩⟩
  exact ⟨_, bind_eq_ok_iff.2 ⟨a, hresolved.bodies, bind_eq_ok_iff.2 ⟨start, hstart,
    bind_eq_ok_iff.2 ⟨collapse, hcollapse, bind_eq_ok_iff.2 ⟨spacing, hspacing, rfl⟩⟩⟩⟩⟩

/-- Reading a text has a grammar or an error. -/
theorem flawless_read (text : String) : Flawless (read text) := by
  refine (Flawless.mapError_error _).bind fun s hs => ?_
  refine (Flawless.mapError_error _).bind fun _ hnames => ?_
  rw [mapError_eq_ok_iff] at hs hnames
  obtain ⟨g, hg⟩ := exists_ofSource (Source.read_of_parse hs) hnames
  exact Flawless.of_ok (mapError_eq_ok_iff.2 hg)

theorem flawless_load (text : String) : Flawless (load text) :=
  (flawless_read text).bind fun g _ => (Flawless.mapError_error _).bind fun _ _ => Flawless.ok g

/-! ## What was read -/

/-- All numbers in a grammar are those of rules, and all its rules have names that lead to
    one. -/
structure Closed (g : Grammar) : Prop where
  children : ∀ {id child : RuleId} {r : Rule}, g.rule? id = some r → child ∈ r.shape.children →
    child < g.size
  start : g.start < g.size
  collapse : ∀ id ∈ g.collapse, id < g.size
  spacing : ∀ spacing ∈ g.spacing, ∀ id ∈ spacing.parents, id < g.size
  lookup : ∀ {name : String} {id : RuleId}, g.lookup name = some id → id < g.size
  listed : ∀ {id : RuleId} {r : Rule}, g.rule? id = some r → ∃ id', g.lookup r.name = some id'

variable {text : String} {g : Grammar} {id child : RuleId} {r r' : Rule}

theorem closed_of_read (h : read text = .ok g) : g.Closed := by
  obtain ⟨s, hs, h⟩ := bind_eq_ok_iff.1 h
  obtain ⟨_, hnames, h⟩ := bind_eq_ok_iff.1 h
  rw [mapError_eq_ok_iff] at hs hnames h
  obtain ⟨declared, nodes, a, -, hresolved, -⟩ :=
    resolved_of_checkNames (Source.read_of_parse hs) hnames
  obtain ⟨a', ha', h⟩ := bind_eq_ok_iff.1 h
  obtain ⟨start, hstart, h⟩ := bind_eq_ok_iff.1 h
  obtain ⟨collapse, hcollapse, h⟩ := bind_eq_ok_iff.1 h
  obtain ⟨spacing, hspacing, h⟩ := bind_eq_ok_iff.1 h
  cases h
  obtain rfl : a = a' := Except.ok.inj (hresolved.bodies.symm.trans ha')
  have hlt : ∀ {names : List String} {ids : List RuleId}, names.mapM a.find = .ok ids →
      ∀ id ∈ ids, id < a.rules.size := by
    intro names ids hids id hid
    obtain ⟨name, -, hname⟩ := exists_of_forall₂ (mapM_eq_ok_iff.1 hids).flip hid
    exact hresolved.sound.lt_of_find hname
  refine ⟨fun hr hchild => ?_, hresolved.sound.lt_of_find hstart, fun id hid => ?_,
    fun sp hsp id hid => ?_, hresolved.sound.lt_of_lookup, fun hr => ?_⟩
  · obtain ⟨c, hc, -⟩ := hresolved.registered.children hr hchild
    exact (Array.getElem?_eq_some_iff.1 hc).1
  · obtain ⟨m, -, hm⟩ :=
      exists_of_forall₂ (mapM_eq_ok_iff.1 hcollapse).flip (List.mem_eraseDups.1 hid)
    exact hresolved.sound.lt_of_find hm
  · obtain ⟨d, -, hd⟩ := exists_of_forall₂ (mapM_eq_ok_iff.1 hspacing).flip hsp
    obtain ⟨parents, hparents, hd⟩ := bind_eq_ok_iff.1 hd
    cases hd
    exact hlt hparents id hid
  · exact Option.isSome_iff_exists.1 (hresolved.registered.listed hr)

/-- There is a rule with this number, and it is no line. -/
def Whole (g : Grammar) (id : RuleId) : Prop := ∃ r, g.rule? id = some r ∧ ¬ r.IsLine

/-- Only alternatives lead to lines. -/
theorem whole_or_alternative_of_read (h : read text = .ok g) (hr : g.rule? id = some r)
    (hchild : child ∈ r.shape.children) : g.Whole child ∨ ∃ bits, r.shape = .alternative bits := by
  obtain ⟨s, declared, nodes, a, -, -, hresolved, hrules, -, -⟩ := exists_resolved_of_read h
  rw [rule?, hrules] at hr
  obtain ⟨c, hc, hline⟩ := hresolved.registered.children hr hchild
  by_cases hc' : c.IsLine
  · exact .inr (hline hc')
  · exact .inl ⟨c, by rw [rule?, hrules, hc], hc'⟩

/-- Rules that are no lines have names of their own. -/
theorem eq_of_name_of_read (h : read text = .ok g) {id' : RuleId} (hr : g.rule? id = some r)
    (hr' : g.rule? id' = some r') (hline : ¬ r.IsLine) (hline' : ¬ r'.IsLine)
    (hname : r.name = r'.name) : id = id' := by
  obtain ⟨s, declared, nodes, a, -, -, hresolved, hrules, -, -⟩ := exists_resolved_of_read h
  rw [rule?, hrules] at hr hr'
  rcases hresolved.registered.eq_or_tag hr hr' hname with heq | ⟨-, ⟨hl, -⟩ | ⟨hl, -⟩⟩
  · exact heq
  · exact absurd hl hline
  · exact absurd hl hline'

/-- Names with a dollar sign in front are left to the symbols that lowering adds. -/
theorem head_name_ne_of_read (h : read text = .ok g) (hr : g.rule? id = some r)
    (hline : ¬ r.IsLine) : r.name.toList.head? ≠ some '$' := by
  obtain ⟨s, declared, nodes, a, -, hdeclared, hresolved, hrules, -, -⟩ := exists_resolved_of_read h
  have hreg := hresolved.registered
  obtain ⟨hnames, -, hdollar⟩ := declareAll_spec hdeclared
  have hfirst : ∀ {i : RuleId} {b : Rule}, i < (Arena.declare s).rules.size →
      a.rules[i]? = some b → b.name.toList.head? ≠ some '$' := by
    intro i b hi hb
    have hmem := isSome_lookup_iff.1 ((hreg.lt_iff hb).1 hi)
    rw [hnames, List.map_nil, List.append_nil, List.mem_reverse] at hmem
    obtain ⟨m, hm, hname⟩ := List.mem_map.1 hmem
    exact hname ▸ hdollar m hm
  rw [rule?, hrules] at hr
  by_cases hid : id < (Arena.declare s).rules.size
  · exact hfirst hid hr
  · obtain ⟨key, hkey⟩ := (hreg.added (Nat.le_of_not_lt hid) hr).resolve_left hline
    obtain ⟨-, hbase, _, ho, e, -, hsuffix, ⟨b, hb, hbname⟩, hvisual, -⟩ := hreg.suffixed hkey
    obtain rfl := Option.some.inj (hr.symm.trans ho)
    have hhead : e.name.toList.head? ≠ some '$' := hbname ▸ hfirst hbase hb
    exact hvisual ▸ Element.head_visual_ne hhead

end Grammar

end LanguageWorkbench
