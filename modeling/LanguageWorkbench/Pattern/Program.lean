import LanguageWorkbench.NatSet
import LanguageWorkbench.Pattern.Matcher

/-!
# Programs of patterns

A matcher runs as a program: a list of instructions, numbered from 0. A thread is an
instruction that waits for the next character. All threads read a text together,
and they are kept in order of preference: the first branch of an alternative before
the second, more rounds of a greedy repetition before fewer.

At any place an instruction is followed once, by the thread that is preferred most.
This bounds the work, and it ends a round of a repetition that takes no character.

* `Program.ofMatcher`: the program of a matcher.
* `Program.find`: the preferred end of the first match in a text.
-/

namespace LanguageWorkbench

/-- One instruction of a program, with the numbers of those after it. -/
inductive Instruction where
  /-- Takes a character of a set. -/
  | char (s : CharSet) (next : Nat)
  /-- Goes on if the place meets a condition. -/
  | place (p : Place) (next : Nat)
  /-- Goes on in two ways, the first preferred. -/
  | split (first second : Nat)
  | jump (next : Nat)
  /-- Ends a match. -/
  | done
deriving DecidableEq, Repr

/-- The instructions of a matcher. -/
structure Program where
  code : Array Instruction
  /-- Whether every match is at the start of the text. -/
  anchored : Bool
deriving DecidableEq, Repr

/-! ## Blocks -/

/-- A block of instructions that may stand anywhere. -/
structure Block where
  /-- How many instructions there are. -/
  length : Nat
  /-- The instructions with the numbers from the first argument on, where the second is
      the number of the instruction that follows the block. -/
  code : Nat → Nat → List Instruction

namespace Block

/-- The block of one instruction. -/
def single (i : Nat → Instruction) : Block := ⟨1, fun _ next => [i next]⟩

/-- The block that does nothing. -/
def skip : Block := single .jump

/-- One block after the other. -/
def seq (first second : Block) : Block where
  length := first.length + second.length
  code start next :=
    let middle := start + first.length
    first.code start middle ++ second.code middle next

/-- One of two blocks, the first preferred. -/
def alt (first second : Block) : Block where
  length := 1 + first.length + second.length
  code start next :=
    let other := start + 1 + first.length
    .split (start + 1) other :: (first.code (start + 1) next ++ second.code other next)

/-- Goes on with `again` or with `next`. A greedy repetition prefers `again`. -/
def branch (greedy : Bool) (again next : Nat) : Instruction :=
  if greedy then .split again next else .split next again

/-- A block once or not at all. -/
def option (b : Block) (greedy : Bool) : Block where
  length := 1 + b.length
  code start next := branch greedy (start + 1) next :: b.code (start + 1) next

/-- A block any number of times. -/
def star (b : Block) (greedy : Bool) : Block where
  length := 1 + b.length
  code start next := branch greedy (start + 1) next :: b.code (start + 1) start

/-- A block once or more. -/
def plus (b : Block) (greedy : Bool) : Block where
  length := 1 + b.length
  code start next :=
    let test := start + b.length
    b.code start test ++ [branch greedy start next]

/-- The instructions of rounds that follow each other. -/
def timesCode (b : Block) : Nat → Nat → Nat → List Instruction
  | 0, _, next => [.jump next]
  | count + 1, start, next =>
    b.code start (start + b.length) ++ timesCode b count (start + b.length) next

/-- A block exactly `count` times. -/
def times (b : Block) (count : Nat) : Block := ⟨count * b.length + 1, b.timesCode count⟩

/-- The instructions of rounds each of which may be the last. -/
def upToCode (b : Block) (greedy : Bool) : Nat → Nat → Nat → List Instruction
  | 0, _, next => [.jump next]
  | count + 1, start, next =>
    let after := start + 1 + b.length
    branch greedy (start + 1) next ::
      (b.code (start + 1) after ++ upToCode b greedy count after next)

/-- A block at most `count` times. -/
def upTo (b : Block) (count : Nat) (greedy : Bool) : Block :=
  ⟨count * (1 + b.length) + 1, b.upToCode greedy count⟩

/-- A block at least `least` times and, if there is a limit, at most `most` times. If a
    round may take no character, `takesSome` is false, and then the first of any number
    of rounds stands before the test for more. -/
def rounds (b : Block) (takesSome : Bool) (least : Nat) (most : Option Nat) (greedy : Bool) :
    Block :=
  match least, most with
  | 0, none => if takesSome then b.star greedy else (b.plus greedy).option greedy
  | 1, none => b.plus greedy
  | n + 1, none => (b.times n).seq (b.plus greedy)
  | 0, some 1 => b.option greedy
  | n, some k => if k ≤ n then b.times n else (b.times n).seq (b.upTo (k - n) greedy)

end Block

namespace Matcher

/-- The instructions that take the characters of a text. -/
def blockOfText : List Char → Block
  | [] => .skip
  | [c] => .single (.char (.single c))
  | c :: rest => (Block.single (.char (.single c))).seq (blockOfText rest)

mutual

/-- The instructions of a matcher. -/
def block : Matcher → Block
  | empty => .skip
  | text cs => blockOfText cs
  | set s => .single (.char s)
  | place p => .single (.place p)
  | group m => block m
  | repetition m least most greedy => (block m).rounds m.takesSome least most greedy
  | sequence ms => blockOfSequence ms
  | choice ms => blockOfChoice ms

/-- The instructions of matchers one after the other. -/
def blockOfSequence : List Matcher → Block
  | [] => .skip
  | [m] => block m
  | m :: rest => (block m).seq (blockOfSequence rest)

/-- The instructions of a choice. -/
def blockOfChoice : List Matcher → Block
  | [] => .skip
  | [m] => block m
  | m :: rest => (block m).alt (blockOfChoice rest)

end

end Matcher

namespace Program

/-- The program of a matcher. -/
def ofMatcher (m : Matcher) : Program where
  code :=
    let b := m.block
    (b.code 0 b.length ++ [Instruction.done]).toArray
  anchored := m.startsWith .textStart

/-! ## Threads -/

/-- The threads at one place, and the instructions followed so far. -/
structure Threads where
  /-- The least preferred first. -/
  waiting : List Nat
  followed : NatSet
deriving Repr

/-- No threads. -/
def Threads.none : Threads := ⟨[], .empty⟩

/-- Adds the threads that an instruction leads to at a place. Every nested call follows
    a new instruction, so `fuel` need only exceed their number. -/
def follow (p : Program) (c : Cursor) : Nat → Threads → Nat → Threads
  | 0, threads, _ => threads
  | fuel + 1, threads, label =>
    if label ∈ threads.followed then threads
    else
      let threads := { threads with followed := threads.followed.insert label }
      match p.code[label]? with
      | some (.jump next) => p.follow c fuel threads next
      | some (.place q next) => if q.holds c then p.follow c fuel threads next else threads
      | some (.split first second) => p.follow c fuel (p.follow c fuel threads first) second
      | some (.char ..) | some .done => { threads with waiting := label :: threads.waiting }
      | none => threads

/-- Whether a thread has ended a match. -/
def isDone (p : Program) (label : Nat) : Bool :=
  match p.code[label]? with
  | some .done => true
  | _ => false

/-- Lets a thread take a character, after which the text is at a place. -/
def take (p : Program) (d : Char) (c : Cursor) (threads : Threads) (label : Nat) : Threads :=
  match p.code[label]? with
  | some (.char s next) =>
    if s.contains d then p.follow c (p.code.size + 1) threads next else threads
  | _ => threads

/-- Runs threads, the most preferred first, on the text from an offset, where `best`
    is the end of a match found before. A thread that ends a match stops those after
    it, and the threads before it may still find a match that is preferred. -/
def run (p : Program) (offset : Nat) (best : Option Nat) : List Char → List Nat → Option Nat
  | [], threads => if threads.any p.isDone then some offset else best
  | d :: rest, threads =>
    let best := if threads.any p.isDone then some offset else best
    match threads.takeWhile (!p.isDone ·) with
    | [] => best
    | label :: others =>
      let next := (label :: others).foldl (p.take d ⟨offset + 1, some d, rest⟩) .none
      p.run (offset + 1) best rest next.waiting.reverse

/-- The preferred end of a match that starts at a place. -/
def findAt (p : Program) (c : Cursor) : Option Nat :=
  p.run c.offset none c.rest (p.follow c (p.code.size + 1) .none 0).waiting.reverse

/-- The preferred end of the first match in a text. -/
def find (p : Program) (text : List Char) : Option Nat :=
  (if p.anchored then [Cursor.start text] else Cursor.onward 0 none text).findSome? p.findAt

end Program

end LanguageWorkbench
