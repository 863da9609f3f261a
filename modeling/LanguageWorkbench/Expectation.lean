import LanguageWorkbench.Error

/-!
# Expectations

An expectation says how a run should end: with a value or with an error, and with
which. `Expectation.judge` compares it with how a run ended, and reports what does
not agree.
-/

namespace LanguageWorkbench

/-- How a run should end. -/
inductive Expectation where
  | success
  /-- With this value. -/
  | successIs (value : String)
  | failure
  /-- With an error whose text has this part. -/
  | failureContains (part : String)
deriving DecidableEq, Repr

/-- How a run ended: with a value, shown as text, or with an error. -/
abbrev Outcome := Except Error String

namespace Expectation

/-- Why an outcome is not the expected one. -/
inductive Mismatch where
  | failed (e : Error)
  | otherValue (expected got : String)
  | succeeded (value : String)
  | otherError (part : String) (e : Error)
deriving DecidableEq, Repr

/-- Whether `part` occurs in a text. -/
def occursIn (part : List Char) : List Char → Bool
  | [] => part.isEmpty
  | c :: cs => part.isPrefixOf (c :: cs) || occursIn part cs

/-- A location, if there is one, with the names of its fields. -/
def showLocation : Option Location → String
  | none => "None"
  | some l =>
    "Some(Location \x7b file: " ++ Text.quoted l.file ++ ", line: " ++ toString l.line ++
      ", col: " ++ toString l.col ++ " \x7d)"

/-- A mismatch as a report. -/
def Mismatch.report (m : Mismatch) : String :=
  "\n🔴 TEST FAILED " ++
    match m with
    | failed e =>
      "(Expected Success, but got Error):\nMessage:  " ++ e.message ++ "\nLocation: " ++
        showLocation e.location? ++ "\n"
    | otherValue expected got =>
      "(Value Mismatch):\nExpected: " ++ Text.quoted expected ++ "\nGot:      " ++
        Text.quoted got ++ "\n"
    | succeeded value =>
      "(Expected Failure, but got Success):\nValue: " ++ Text.quoted value ++ "\n"
    | otherError part e =>
      "(Error Message Mismatch):\nExpected part: " ++ Text.quoted part ++ "\nActual msg:    " ++
        Text.quoted e.message ++ "\nLocation:      " ++ showLocation e.location? ++ "\n"

/-- Compares an expectation with an outcome, which is handed on if it is the expected
    one. -/
def judge : Expectation → Outcome → Except Mismatch Outcome
  | success, .ok value => .ok (.ok value)
  | successIs expected, .ok value =>
    if value = expected then .ok (.ok value) else .error (.otherValue expected value)
  | success, .error e | successIs _, .error e => .error (.failed e)
  | failure, .ok value | failureContains _, .ok value => .error (.succeeded value)
  | failure, .error e => .ok (.error e)
  | failureContains part, .error e =>
    if occursIn part.toList e.message.toList then .ok (.error e) else .error (.otherError part e)

end Expectation

end LanguageWorkbench
