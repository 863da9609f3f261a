import LanguageWorkbench.Bindings
import LanguageWorkbench.Grammar.Load
import LanguageWorkbench.Lowered.OfGrammar
import LanguageWorkbench.Table.Build

/-!
# Workspaces

A workspace is a directory of files. A grammar is loaded from one of them by its
path, and the stem of the file name must be the name of the language.

* `Workspace.find`: what a path leads to.
* `Workspace.load`: the grammar of a file.
* `Workspace.generate`: the bindings of the grammar of a file. They are made only for
  a grammar that has a table.
-/

namespace LanguageWorkbench

/-! ## Paths -/

namespace Path

/-- A path below a base. Nothing is put between an empty base and the path, and an
    absolute path stands for itself. -/
def join (base path : String) : String :=
  if base.isEmpty || path.toList.head? = some '/' then path
  else if base.toList.getLast? = some '/' then base ++ path
  else base ++ "/" ++ path

/-- The parts of a path between slashes. -/
def parts (path : String) : List String :=
  ((path.toList.splitOn '/')).map String.ofList

/-- A file name up to its last dot. A dot that opens the name does not count. -/
def stemOfName (name : String) : String :=
  match (name.toList.reverse.dropWhile (· ≠ '.')).drop 1 with
  | [] => name
  | before => String.ofList before.reverse

/-- The stem of the file name at the end of a path. -/
def stem (path : String) : String := ((parts path).getLast?.map stemOfName).getD ""

end Path

/-! ## Files -/

/-- Why a file has no text. -/
inductive FileTrouble where
  | notFound
  | notADirectory
  | isADirectory
  /-- The bytes of the file encode no text. -/
  | notText
  /-- No file has a name with this sign. -/
  | impossibleName
deriving DecidableEq, Repr

/-- The text of a trouble with a file. -/
def FileTrouble.message : FileTrouble → String
  | notFound => "No such file or directory (os error 2)"
  | notADirectory => "Not a directory (os error 20)"
  | isADirectory => "Is a directory (os error 21)"
  | notText => "stream did not contain valid UTF-8"
  | impossibleName => "file name contained an unexpected NUL byte"

/-- A directory of files, each with the parts of its path and its bytes. -/
structure Workspace where
  files : List (List String × ByteArray)

namespace Workspace

/-- A place in the file system, as far as a workspace knows it. -/
inductive Place where
  /-- A directory of the workspace, by the parts of its path in reverse. -/
  | inside (parts : List String)
  /-- A directory above the workspace. -/
  | above
  | file (bytes : ByteArray)

/-- What a directory of the workspace has under a name. -/
def entry? (w : Workspace) (directory : List String) (name : String) : Option Place :=
  let path := directory.reverse ++ [name]
  match w.files.find? (·.1 = path) with
  | some (_, bytes) => some (.file bytes)
  | none => if w.files.any (path.isPrefixOf ·.1) then some (.inside (name :: directory)) else none

/-- What one part of a path leads to. Above the workspace only its own directory is
    unknown by name. -/
def enter (w : Workspace) (p : Place) (part : String) : Except FileTrouble Place :=
  match p with
  | .file _ => .error .notADirectory
  | .above => if part = "" ∨ part = "." ∨ part = ".." then .ok .above else .error .notFound
  | .inside directory =>
    if part = "" ∨ part = "." then .ok p
    else if part = ".." then .ok (match directory with | [] => .above | _ :: up => .inside up)
    else
      match w.entry? directory part with
      | some found => .ok found
      | none => .error .notFound

/-- What a path leads to from the directory of the workspace. The empty path leads
    nowhere. -/
def find (w : Workspace) (path : String) : Except FileTrouble Place :=
  if path.toList.contains '\x00' then .error .impossibleName
  else
    match Path.parts path with
    | [] | [""] => .error .notFound
    | "" :: parts => parts.foldlM w.enter .above
    | parts => parts.foldlM w.enter (.inside [])

/-- The text of the file at a path. -/
def read (w : Workspace) (path : String) : Except FileTrouble String := do
  match ← w.find path with
  | .inside _ | .above => throw .isADirectory
  | .file bytes =>
    match String.fromUTF8? bytes with
    | some text => return text
    | none => throw .notText

/-- A workspace with the given files. -/
def ofFiles (files : List (String × ByteArray)) : Workspace where
  files := files.map fun (name, bytes) =>
    ((Path.parts name).filter fun part => part ≠ "" ∧ part ≠ ".", bytes)

/-! ## Grammars -/

/-- Why a workspace gives no bindings. -/
inductive Trouble where
  | file (t : FileTrouble)
  /-- The grammar in the file at a path is wrong. -/
  | grammar (path : String) (e : Error)
  /-- The file at a path declares another language than its name says. -/
  | language (path declared expected : String)
  /-- The grammar is sound, but it has no table or its names are none in code. -/
  | failure (f : Failure)
deriving DecidableEq, Repr

/-- The grammar of a file. -/
def load (w : Workspace) (base name : String) : Except Trouble Grammar := do
  let path := Path.join base name
  let text ← (w.read path).mapError .file
  let grammar ← (Grammar.load text).mapError fun
    | .error e => .grammar path e
    | .fault f => .failure (.fault f)
  let stem := Path.stem path
  if canonical stem ≠ grammar.language.dash then
    throw (.language path grammar.language.visual stem)
  return grammar

/-- The bindings of the grammar of a file. -/
def generate (w : Workspace) (base name : String) : Except Trouble (List Code) := do
  let grammar ← w.load base name
  let compiled : Noted Table := do Table.build (← Lowered.ofGrammar grammar)
  let _ ← compiled.result.mapError .failure
  (Bindings.ofGrammar grammar).mapError fun f => .failure (.fault f)

namespace Trouble

/-- The text of a trouble that is no failure of its own. -/
def message : Trouble → String
  | file t => t.message
  | grammar path e => path ++ ": " ++ e.message
  | language path declared expected =>
    path ++ ": declares language '" ++ declared ++ "', expected '" ++ expected ++ "'"
  | failure (.error e) => e.message
  | failure (.fault f) => f.message

end Trouble

end Workspace

end LanguageWorkbench
