import LanguageWorkbench.Pattern.ByteForm
import LanguageWorkbench.Pattern.Matcher
import Std.Data.HashMap

/-!
# How large patterns are

The size of a pattern is that of two automata which read the bytes of a text: one
forwards, which also marks where groups start and end, and one backwards. An
automaton is a list of states. A state has an edge for a byte range, or waits for
nothing. Some states have more: the edges of a table, or the ways of a fork.

The states of an automaton follow the matcher, part by part. For a set beyond ASCII
they make a tree of the byte forms of its characters. Equal subtrees are built once
if a memo remembers them. A memo has a fixed number of slots, and each slot holds the
last subtree whose hash fell there, so how much is shared depends on the numbers of
the states.

* `Matcher.layout`: what the automaton of a matcher consists of.
* `Layout.measure`: how large it is.
* `Matcher.fits`: whether both automata of a matcher stay within a limit.
-/

namespace LanguageWorkbench

/-- The size of the part of an automaton that is built so far. -/
structure Footprint where
  states : Nat
  /-- The bytes that states with tables and forks take beside their own. -/
  extra : Nat
deriving DecidableEq, Repr

namespace Footprint

/-- The size in bytes: 32 for a state, and its extra bytes. -/
def bytes (f : Footprint) : Nat := 32 * f.states + f.extra

/-- Adds states. -/
def add (f : Footprint) (states extra : Nat) : Footprint := ⟨f.states + states, f.extra + extra⟩

/-- The bytes of an edge in a table. -/
def edgeBytes : Nat := 8

/-- The bytes of a way of a fork. -/
def wayBytes : Nat := 4

end Footprint

/-! ## Hashes -/

/-- Numbers mixed one by one into a hash, in the way known as FNV-1a. -/
def mixHash (numbers : List Nat) : UInt64 :=
  numbers.foldl (fun h n => (h ^^^ UInt64.ofNat n) * 1099511628211) 14695981039346656037

/-- The slot of a key among `count` slots. -/
def slotOf (count : Nat) (key : List Nat) : Nat := (mixHash key).toNat % count

/-- The last key of each slot, with the number of its state. -/
abbrev Memo := Std.HashMap Nat (List Nat × Nat)

/-- An automaton in the making. -/
structure Build where
  footprint : Footprint
  memo : Memo

namespace Build

/-- Nothing remembered. -/
def ofFootprint (f : Footprint) : Build := ⟨f, ∅⟩

/-- A new state, which its slot remembers. -/
def create (b : Build) (slot : Nat) (key : List Nat) (extra : Nat) : Nat × Build :=
  let state := b.footprint.states
  (state, ⟨b.footprint.add 1 extra, b.memo.insert slot (key, state)⟩)

/-- The number of the state with a key: one that the memo remembers, or a new one. -/
def share (b : Build) (slots : Nat) (key : List Nat) (extra : Nat) : Nat × Build :=
  let slot := slotOf slots key
  match b.memo[slot]? with
  | some (key', state) => if key = key' then (state, b) else b.create slot key extra
  | none => b.create slot key extra

end Build

/-! ## Sets read forwards -/

/-- A tree of byte ranges: the first edge of a node with the node below it, and the
    node's other edges. A node without edges ends a form. -/
inductive ByteTree where
  | leaf
  | edge (range : ByteRange) (below others : ByteTree)
deriving DecidableEq, Repr

namespace ByteTree

/-- The tree of one form. -/
def ofForm : ByteForm → ByteTree
  | [] => leaf
  | range :: rest => edge range (ofForm rest) leaf

/-- Adds a form before all others. It shares the start of the first one. -/
def add : ByteForm → ByteTree → ByteTree
  | [], tree => tree
  | form, leaf => ofForm form
  | range :: rest, edge range' below others =>
    if range = range' then edge range' (add rest below) others
    else edge range (ofForm rest) (edge range' below others)

/-- The tree of forms in ascending order. -/
def ofForms (forms : List ByteForm) : ByteTree := forms.foldr add leaf

/-- How many nodes the memo remembers at most. -/
def slots : Nat := 10000

/-- The state of a node whose edges have a key: `last` if it has none. -/
def node (last : Nat) (key : List Nat) (b : Build) : Nat × Build :=
  if key.isEmpty then (last, b)
  else b.share slots key (Footprint.edgeBytes * (key.length / 3))

/-- Builds the nodes below a node. The key of the node lists its edges: byte range and
    target of each. -/
def build (last : Nat) : ByteTree → Build → List Nat × Build
  | leaf, b => ([], b)
  | edge range below others, b =>
    let (key, b) := build last below b
    let (target, b) := node last key b
    let (rest, b) := build last others b
    (range.low :: range.high :: target :: rest, b)

/-- The footprint with the tree: the state where its forms end, and its nodes. -/
def measure (tree : ByteTree) (f : Footprint) : Footprint :=
  let (key, b) := tree.build f.states (.ofFootprint (f.add 1 0))
  (node f.states key b).2.footprint

end ByteTree

/-! ## Sets read backwards -/

namespace ByteForm

/-- How many states the memo remembers at most. -/
def slots : Nat := 1000

/-- Builds the states that read a form backwards. They are numbered from the last byte
    on, where a form begins, and lead to `last`. States that lead to the same one with
    the same byte range are shared. -/
def build (last : Nat) (form : ByteForm) (b : Build) : Nat × Build :=
  form.foldl (fun (state, b) range => b.share slots [state, range.low, range.high] 0) (last, b)

/-- The footprint with the states that read forms backwards: a fork with a way to each
    form, and the state where all forms end. -/
def measureAll (forms : List ByteForm) (f : Footprint) : Footprint :=
  let b := forms.foldl (fun b form => (build (f.states + 1) form b).2) (.ofFootprint (f.add 2 0))
  b.footprint.add 0 (Footprint.wayBytes * forms.length)

end ByteForm

/-! ## Layouts -/

/-- What an automaton consists of, in the order of its states. -/
inductive Layout where
  | states (count extra : Nat)
  /-- A set that is read forwards. -/
  | tree (t : ByteTree)
  /-- A set that is read backwards. -/
  | forms (fs : List ByteForm)
  | both (first second : Layout)
  | times (l : Layout) (count : Nat)
deriving Repr

namespace Layout

/-- A step, done `count` times unless it fails. -/
def iterate (step : Footprint → Option Footprint) : Nat → Footprint → Option Footprint
  | 0, f => some f
  | count + 1, f =>
    match step f with
    | some f => iterate step count f
    | none => none

/-- The footprint after a layout, unless it grows beyond the limit. -/
def measure (limit : Nat) : Layout → Footprint → Option Footprint
  | states count extra, f => check (f.add count extra)
  | tree t, f => check (t.measure f)
  | forms fs, f => check (ByteForm.measureAll fs f)
  | both first second, f =>
    match measure limit first f with
    | some f => measure limit second f
    | none => none
  | times l count, f => iterate (measure limit l) count f
where
  check (f : Footprint) : Option Footprint := if f.bytes ≤ limit then some f else none

/-- The layout of several, in order. -/
def ofList : List Layout → Layout
  | [] => states 0 0
  | [l] => l
  | l :: rest => both l (ofList rest)

end Layout

/-- The layout of a matcher. What follows is attached to its last state, which takes
    the bytes of one more way if that state is a fork. -/
structure Plan where
  layout : Layout
  endsInFork : Bool

namespace Plan

/-- States of which the last is no fork. -/
def states (count extra : Nat) : Plan := ⟨.states count extra, false⟩

/-- The bytes that attaching what follows takes. -/
def attachBytes (p : Plan) : Nat := if p.endsInFork then Footprint.wayBytes else 0

/-- One plan after the other. -/
def seq (first second : Plan) : Plan :=
  ⟨.ofList [first.layout, .states 0 first.attachBytes, second.layout], second.endsInFork⟩

/-- A plan `count` times. -/
def times (p : Plan) : Nat → Plan
  | 0 => states 1 0
  | count + 1 =>
    ⟨.both p.layout (.times (.both (.states 0 p.attachBytes) p.layout) count), p.endsInFork⟩

/-- A plan once or not at all: a fork before it and a state where both ways meet. -/
def option (p : Plan) : Plan :=
  ⟨.ofList [.states 1 (2 * Footprint.wayBytes), p.layout, .states 1 p.attachBytes], false⟩

/-- A plan any number of times: a fork before it, where the rounds also end. If a round
    may take no character, a fork after it starts the next round, and another before it
    allows for none. -/
def star (p : Plan) (takesSome : Bool) : Plan :=
  if takesSome then
    ⟨.both (.states 1 (Footprint.wayBytes + p.attachBytes)) p.layout, true⟩
  else ⟨.both p.layout (.states 3 (4 * Footprint.wayBytes + p.attachBytes)), false⟩

/-- A plan once or more: a fork after it. -/
def plus (p : Plan) : Plan :=
  ⟨.both p.layout (.states 1 (Footprint.wayBytes + p.attachBytes)), true⟩

/-- A plan at most `count` times after another: a state where all ways meet, and a fork
    before each round. -/
def upTo (before p : Plan) (count : Nat) : Plan :=
  let round := .both (.states 1 (2 * Footprint.wayBytes + p.attachBytes)) p.layout
  ⟨.ofList [before.layout, .states 1 before.attachBytes, .times round count], false⟩

/-- A plan at least `least` times and, if there is a limit, at most `most` times. -/
def rounds (p : Plan) (takesSome : Bool) (least : Nat) (most : Option Nat) : Plan :=
  match least, most with
  | 0, none => p.star takesSome
  | 1, none => p.plus
  | n + 1, none => (p.times n).seq p.plus
  | 0, some 1 => p.option
  | n, some k => if k ≤ n then p.times n else (p.times n).upTo p (k - n)

/-- One of several plans: after the first two, a fork and a state where all meet. -/
def choice : List Plan → Plan
  | first :: second :: rest =>
    let ways := (first :: second :: rest).foldl (fun n p => n + Footprint.wayBytes + p.attachBytes) 0
    ⟨.ofList (first.layout :: second.layout :: .states 2 ways :: rest.map layout), false⟩
  | [p] => p
  | [] => states 1 0

end Plan

/-! ## Texts of a choice -/

namespace ByteText

/-- Texts as bytes. An empty one stands for the end of a text. -/
abbrev Texts := List (List Nat)

/-- The texts up to the first that ends here, and those after it. -/
def splitAtEnd : Texts → Texts × Option Texts
  | [] => ([], none)
  | [] :: rest => ([], some rest)
  | text :: rest =>
    let (first, others) := splitAtEnd rest
    (text :: first, others)

/-- The texts between those that end here, each of which closes a stretch. `fuel`
    bounds the stretches. -/
def stretches : Nat → Texts → List Texts
  | 0, texts => [texts]
  | fuel + 1, texts =>
    match splitAtEnd texts with
    | (first, some rest) => first :: stretches fuel rest
    | (first, none) => [first]

/-- What follows a byte in the texts that start with it. -/
def after (byte : Nat) (texts : Texts) : Texts :=
  texts.filterMap fun text => if text.head? = some byte then some (text.drop 1) else none

/-- The states of the tree of texts below a node, by preference: a table for each
    stretch of texts without an end among them, or a single edge, and a fork to all
    tables and ends. A node where nothing goes on needs no state. `fuel` bounds the
    length of the texts. -/
def states : Nat → Texts → Footprint
  | 0, _ => ⟨0, 0⟩
  | fuel + 1, texts =>
    if texts.all (·.isEmpty) then ⟨0, 0⟩
    else
      let parts := stretches texts.length (texts.dropWhile (·.isEmpty))
      let ways := parts.length - 1 + if texts.head?.any (·.isEmpty) then 1 else 0
      parts.foldl (fun f (stretch : Texts) =>
        let bytes : List Nat := (stretch.filterMap (·.head?)).eraseDups
        let table := if bytes.length ≤ 1 then 0 else Footprint.edgeBytes * bytes.length
        let f := if bytes.isEmpty then f else f.add 1 (table + Footprint.wayBytes)
        bytes.foldl (fun f byte =>
          let below := states fuel (after byte stretch)
          f.add below.states below.extra) f)
        ⟨1, Footprint.wayBytes * ways⟩

/-- The plan of a choice of texts: a state where all end, and their tree. -/
def plan (texts : Texts) : Plan :=
  let f := states ((texts.map List.length).foldl max 0 + 1) texts
  .states (1 + f.states) f.extra

end ByteText

/-! ## Matchers -/

namespace Matcher

/-- The bytes of a text. -/
def bytesOf (cs : List Char) : List Nat := cs.flatMap fun c => ByteForm.encode c.toNat

/-- The texts of a list of matchers, if each is a text. -/
def texts? : List Matcher → Option (List (List Char))
  | [] => some []
  | text cs :: rest => do return cs :: (← texts? rest)
  | _ => none

/-- The plan of a set: one table if all its characters are ASCII. -/
def setPlan (backward : Bool) (s : CharSet) : Plan :=
  if s.isAscii then .states 2 (Footprint.edgeBytes * s.ranges.length)
  else if backward then ⟨.forms s.byteForms, false⟩
  else ⟨.tree (.ofForms s.byteForms), false⟩

mutual

/-- The plan of a matcher. -/
def plan (backward : Bool) : Matcher → Plan
  | empty | place _ => .states 1 0
  | text cs => .states (bytesOf cs).length 0
  | set s => setPlan backward s
  | group m =>
    let inner := plan backward m
    if backward then inner
    else ⟨.ofList [.states 1 0, inner.layout, .states 1 inner.attachBytes], false⟩
  | repetition m least most _ => (plan backward m).rounds m.takesSome least most
  | sequence ms =>
    match if backward then (plans backward ms).reverse else plans backward ms with
    | [] => .states 1 0
    | first :: rest => rest.foldl Plan.seq first
  | choice ms =>
    match texts? ms with
    | some texts =>
      let texts := texts.map bytesOf
      ByteText.plan (if backward then texts.map List.reverse else texts)
    | none => .choice (plans backward ms)

/-- The plans of the matchers of a list. -/
def plans (backward : Bool) : List Matcher → List Plan
  | [] => []
  | m :: rest => plan backward m :: plans backward rest

end

/-- What the automaton of a pattern consists of. Unless every match lies at the side
    where it starts to read, a loop skips bytes before. Forwards the whole match is a
    group. -/
def layout (backward : Bool) (m : Matcher) : Layout :=
  let fixed := if backward then m.endsWith .textEnd else m.startsWith .textStart
  let inner := plan backward (if backward then m else .group m)
  let start := if fixed then .states 1 0
    else .states 3 (Footprint.edgeBytes + 2 * Footprint.wayBytes)
  .ofList [start, inner.layout, .states 1 inner.attachBytes]

/-- Whether both automata of a matcher stay within a limit. -/
def fits (limit : Nat) (m : Matcher) : Bool :=
  [false, true].all fun backward => ((m.layout backward).measure limit ⟨0, 0⟩).isSome

end Matcher

end LanguageWorkbench
