/-!
# Issues

What is wrong with a source text, or only suspicious in it, told with the line that it belongs to.
-/

namespace Dcpu16

/-- How bad an issue is. -/
inductive Severity
  /-- There is no image. -/
  | error
  /-- There is an image all the same. -/
  | warning
  deriving DecidableEq

def Severity.name : Severity → String
  | .error => "Error"
  | .warning => "Warning"

/-- Something to be said about a line. -/
structure Issue where
  /-- The index of the line, counted from zero. -/
  line : Nat
  severity : Severity
  message : String
  deriving DecidableEq

namespace Issue

def isError (issue : Issue) : Bool := issue.severity == .error

/-- An issue with its line, counted from one. -/
def located (issue : Issue) : String :=
  "line " ++ toString (issue.line + 1) ++ ": " ++ issue.message

def text (issue : Issue) : String :=
  "[" ++ issue.severity.name ++ "] " ++ issue.located

end Issue

end Dcpu16
