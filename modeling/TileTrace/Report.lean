/-!
# Error reports

A report is an error on its way to the reader: its message, the place where it
was raised, and the context lines that were added while it went up. A single
context line follows the message in parentheses. Several are listed below it,
the most specific first.
-/

namespace TileTrace

/-- An error with its context lines and its backtrace. -/
structure Report where
  message : String
  backtrace : String
  context : List String := []
  deriving DecidableEq, Repr, Inhabited

namespace Report

/-- The report with one more context line. -/
def addContext (report : Report) (line : String) : Report :=
  { report with context := report.context ++ [line] }

/-- The message with its context. -/
def summary (report : Report) : String :=
  match report.context with
  | [line] => report.message ++ " (" ++ line ++ ")"
  | lines => report.message ++ String.join (lines.map ("\n  " ++ ·))

/-- The summary followed by the backtrace. -/
def full (report : Report) : String :=
  report.summary ++ "\n" ++ report.backtrace

/-- The report before and after each of the given context lines. -/
def history (report : Report) : List String → List Report
  | [] => [report]
  | line :: lines => report :: (report.addContext line).history lines

end Report

end TileTrace
