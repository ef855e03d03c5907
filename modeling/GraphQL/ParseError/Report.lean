import GraphQL.ParseError
import GraphQL.Text.Lines

/-!
# Reports of parse errors

A report names the place of an error, shows the line of the source with a row of markers under the span, and adds
the notes, each with a line of its own where it speaks of a second place.
-/

namespace GraphQL.ParseError

/-- `file:line:column`, where a source without a file is called `<input>`. -/
def place (e : ParseError) (file : Option String) : String :=
  let (line, column) := e.span.first.lineColumn
  file.getD "<input>" ++ ":" ++ toString line ++ ":" ++ toString column

/-- The report on one line. -/
def oneLine (e : ParseError) (file : Option String) : String :=
  e.place file ++ ": error: " ++ e.message

def spaces (n : Nat) : String := String.ofList (List.replicate n ' ')

/-- How many markers stand under a line: one per character of the span, to the end of the line if the span goes on
below it, and at least one. -/
def markerCount (span : Span) (line : List Char) : Nat :=
  let stop := if span.stop.line = span.first.line then span.stop.column else line.length
  max 1 (stop - span.first.column)

/-- The line that a span starts on, numbered and underlined, or nothing if the source has no such line. -/
def snippet (source : String) (span : Span) (marker : Char) : String :=
  match (feedLines source.toList)[span.first.line]? with
  | none => ""
  | some line =>
    let number := toString (span.first.line + 1)
    let gutter := max 2 number.length
    spaces gutter ++ " |\n" ++
    spaces (gutter - number.length) ++ number ++ " | " ++ String.ofList line ++ "\n" ++
    spaces gutter ++ " | " ++ spaces span.first.column ++
      String.ofList (List.replicate (markerCount span line) marker) ++ "\n"

def noteText (source : String) (note : Note) : String :=
  "   = " ++ note.kind.label ++ ": " ++ note.message ++ "\n" ++
  match note.span with
  | some span => snippet source span '-'
  | none => ""

/-- The report with a snippet of the source and all notes. -/
def detailed (e : ParseError) (source : String) (file : Option String) : String :=
  "error: " ++ e.message ++ "\n  --> " ++ e.place file ++ "\n" ++ snippet source e.span '^' ++
  String.join (e.notes.map (noteText source))

end GraphQL.ParseError
