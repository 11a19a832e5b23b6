import ApiLint.Files.FileSystem
import ApiLint.Text.Pieces
import ApiLint.Yaml.Value

/-!
# Sources of documents

A document comes from a file or from a URL, whose text is fetched by a function that is given. It is
JSON if its source is named so or its text starts with a brace, and YAML otherwise. What the reader
of a format says of a text that it does not take is its own, and a parameter of the messages that
repeat it.
-/

namespace ApiLint

open Json

inductive Format where
  | json
  | yaml
  deriving DecidableEq, Repr

namespace Format

def name : Format → String
  | json => "JSON"
  | yaml => "YAML"

def value? : Format → String → Option Value
  | json, s => Value.ofText? s
  | yaml, s => Yaml.valueOfText? s

def valueAs? : Format → Layout → String → Option Value
  | json, layout, s => Value.ofTextAs? layout s
  | yaml, layout, s => Yaml.valueOfTextAs? layout s

end Format

/-- What the readers of the formats say of a text that they cannot read, and of one whose value was
refused for a reason, which they give with the place where they were. -/
structure Wording where
  unread : Format → String → String
  refused : Format → String → String → String

inductive Source where
  | path (path : Path)
  | url (url : String)

inductive DocumentError where
  | unreadable (reason : ReadError)
  | unfetched (reason : String)
  | malformed (source : Source) (format : Format) (text : String)

namespace Source

def name : Source → String
  | path p => p.text
  | url u => u

/-- The ending of JSON files; in a URL, what follows a question mark or a number sign is no part of
the name. -/
def isNamedJson : Source → Bool
  | path p => p.extension?.any fun e => e.toLower = "json"
  | url u =>
    Text.endsWith ".json" (String.ofList (u.toList.takeWhile fun c => c ≠ '?' && c ≠ '#'))

def format (s : Source) (text : String) : Format :=
  if s.isNamedJson || (Text.trimStart text.toList).head? = some '\x7b' then .json else .yaml

def parse? (s : Source) (text : String) : Except DocumentError Value :=
  match (s.format text).value? text with
  | some v => .ok v
  | none => .error (.malformed s (s.format text) text)

def text (fs : FileSystem) (fetch : String → Except String String) :
    Source → Except DocumentError String
  | path p => (fs.read p).mapError .unreadable
  | url u => (fetch u).mapError .unfetched

def load (fs : FileSystem) (fetch : String → Except String String) (s : Source) :
    Except DocumentError Value :=
  s.text fs fetch >>= s.parse?

end Source

def DocumentError.message (w : Wording) : DocumentError → String
  | unreadable e => "IO error: " ++ e.message
  | unfetched e => "HTTP request error: " ++ e
  | malformed source format text =>
    "Could not parse " ++ source.name ++ ": " ++ w.unread format text

end ApiLint
