import ApiLint.CommandLine.Arguments
import ApiLint.Finding.Basic
import ApiLint.Text.Pieces

/-!
# Reports

The text of findings: for readers, a paragraph for each and their number, or one line of JSON for
each. In a terminal a text may have a style, which begins with its codes and ends with a reset; where
the text resets the terminal itself, the style begins again.
-/

namespace ApiLint.CommandLine

open Json

inductive Style where
  | red
  | cyan
  | yellow
  | dim
  | boldRed
  | boldGreen
  deriving DecidableEq, Repr

namespace Style

def codes : Style → String
  | red => "31"
  | cyan => "36"
  | yellow => "33"
  | dim => "2"
  | boldRed => "1;31"
  | boldGreen => "1;32"

def sequence (codes : String) : List Char := '\x1b' :: '[' :: (codes.toList ++ ['m'])

def reset : List Char := sequence "0"

def paint (s : Style) (text : String) : String :=
  let start := sequence s.codes
  String.ofList (start ++ Text.replace reset (reset ++ start) text.toList ++ reset)

end Style

def painted (color : Bool) (s : Style) (text : String) : String :=
  if color then s.paint text else text

namespace Report

def locationLine (color : Bool) (l : Location) : String :=
  if l.isRoot then ""
  else "  " ++ painted color .dim "location" ++ ": " ++ painted color .dim l.text ++ "\n"

def paragraph (color : Bool) (f : Finding) : String :=
  "\n" ++ painted color .boldRed f.name ++ "\n  " ++ f.message ++ "\n" ++
    locationLine color f.location

def summary (color : Bool) (count : Nat) : String :=
  if count = 0 then painted color .boldGreen "✓ You have 0 lint errors!"
  else painted color .yellow ("Found " ++ toString count ++ " lint error(s)")

def human (color : Bool) (fs : List Finding) : String :=
  String.join (fs.map (paragraph color)) ++ "\n" ++ summary color fs.length ++ "\n"

def line (f : Finding) : String := f.toValue.text ++ "\n"

def json (fs : List Finding) : String := String.join (fs.map line)

def text (format : OutputFormat) (color : Bool) (fs : List Finding) : String :=
  match format with
  | .human => human color fs
  | .json => json fs

def documentError (format : OutputFormat) (color : Bool) (message : String) : String :=
  match format with
  | .human => painted color .red "✗ Document error:" ++ " " ++ message ++ "\n"
  | .json => (Value.object [("error", .string message)]).text ++ "\n"

end Report

end ApiLint.CommandLine
