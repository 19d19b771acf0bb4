/-! Quoted text: how a character is written between quotes, and how a quoted text is read. -/
namespace Tacit.Quoted

def escape (quote : Char) (c : Char) : List Char :=
  if c = '\n' then ['\\', 'n']
  else if c = '\t' then ['\\', 't']
  else if c = '\x00' then ['\\', '0']
  else if c = '\\' ∨ c = quote then ['\\', c]
  else [c]

def enclose (quote : Char) (text : List Char) : List Char :=
  quote :: text.flatMap (escape quote) ++ [quote]

def escaped (c : Char) : Char :=
  if c = 'n' then '\n'
  else if c = 't' then '\t'
  else if c = '0' then '\x00'
  else c

/-- Resolves backslashes; one at the very end stands for itself. -/
def decode : List Char → List Char
  | [] => []
  | '\\' :: c :: rest => escaped c :: decode rest
  | c :: rest => c :: decode rest

/-- The text inside a quoted one: its first and last characters are dropped, whatever they are. -/
def content (quoted : String) : String :=
  String.ofList (decode (quoted.toList.drop 1).dropLast)

end Tacit.Quoted
