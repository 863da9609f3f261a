import LanguageWorkbench.Error

/-!
# Notes

The steps of a compilation leave notes: what was built, what was dropped, what
deserves a look. A step that can fail is `Noted`: the notes up to its end and its
result, so the notes of a failed step are kept.
-/

namespace LanguageWorkbench

/-- How much a note matters, from the most to the least. -/
inductive Level where
  | warn
  | info
  | debug
  | trace
deriving DecidableEq, Repr

namespace Level

/-- The name of a level. -/
def name : Level → String
  | warn => "WARN"
  | info => "INFO"
  | debug => "DEBUG"
  | trace => "TRACE"

/-- The place of a level in the order. -/
def rank : Level → Nat
  | warn => 0
  | info => 1
  | debug => 2
  | trace => 3

end Level

/-- A remark of one step. -/
structure Note where
  level : Level
  text : String
deriving DecidableEq, Repr

/-- A step that leaves notes and may fail. -/
structure Noted (α : Type) where
  notes : List Note
  result : Except Failure α

namespace Noted

/-- A step that says nothing. -/
def ofResult {α : Type} (r : Except Failure α) : Noted α := ⟨[], r⟩

/-- A step that only leaves a note. -/
def tell (level : Level) (text : String) : Noted Unit := ⟨[⟨level, text⟩], .ok ()⟩

/-- Runs a step and then, if it has a result, the next. -/
def andThen {α β : Type} (x : Noted α) (f : α → Noted β) : Noted β :=
  match x.result with
  | .error e => ⟨x.notes, .error e⟩
  | .ok a =>
    let y := f a
    ⟨x.notes ++ y.notes, y.result⟩

instance : Monad Noted where
  pure a := ⟨[], .ok a⟩
  bind := andThen

instance : MonadExcept Failure Noted where
  throw e := ⟨[], .error e⟩
  tryCatch x handle :=
    match x.result with
    | .ok _ => x
    | .error e =>
      let y := handle e
      ⟨x.notes ++ y.notes, y.result⟩

/-- The notes of a level that matters as much as `least` or more. -/
def upTo (least : Level) (notes : List Note) : List Note :=
  notes.filter fun n => n.level.rank ≤ least.rank

@[simp] theorem result_bind {α β : Type} (x : Noted α) (f : α → Noted β) :
    (x >>= f).result = x.result.bind fun a => (f a).result := by
  show (andThen x f).result = _
  unfold andThen
  split <;> rename_i h <;> rw [h] <;> rfl

@[simp] theorem result_pure {α : Type} (a : α) : (pure a : Noted α).result = .ok a := rfl

end Noted

end LanguageWorkbench
