import Tacit.Session

/-! The command line: what the arguments ask for, and what is printed in answer. Reading the file is
left to the caller, everything else is decided here. -/
namespace Tacit.CommandLine

structure Options where
  file : Bool
  tokens : Bool
  glyphs : Bool
  maxDepth : Option Nat
  contents : Option String

namespace Options

def initial : Options := ⟨false, false, false, none, none⟩

/-- A flag may be given once. -/
def setShort (options : Options) (flag : Char) : Option Options :=
  if flag = 'f' ∧ ¬ options.file then some { options with file := true }
  else if flag = 't' ∧ ¬ options.tokens then some { options with tokens := true }
  else if flag = 'g' ∧ ¬ options.glyphs then some { options with glyphs := true }
  else none

/-- Reads a limit of at most 64 bits, with an optional plus sign. -/
def limit? (text : List Char) : Option Nat :=
  let digits :=
    match text with
    | '+' :: rest => rest
    | _ => text
  if digits = [] ∨ ¬ digits.all Char.isDigit then none
  else
    let limit := Nat.ofDigitChars 10 digits 0
    if limit < Nat.pow 2 64 then some limit else none

def setMaxDepth (options : Options) (text : List Char) : Option Options :=
  if options.maxDepth.isSome then none
  else (limit? text).map fun limit => { options with maxDepth := some limit }

def setContents (options : Options) (text : String) : Option Options :=
  if options.contents.isSome then none else some { options with contents := some text }

/-- A long option that is complete in itself. -/
def setLong (options : Options) (option : String) : Option Options :=
  if option = "file" then options.setShort 'f'
  else if option = "tokens" then options.setShort 't'
  else if option = "glyphs" then options.setShort 'g'
  else
    match option.splitOn "=" with
    | "max-depth" :: value => options.setMaxDepth (String.intercalate "=" value).toList
    | _ => none

/-- Takes in one argument. A single dash is positional. -/
def add (options : Options) (arg : String) : Option Options :=
  match arg.toList with
  | '-' :: '-' :: long => options.setLong (String.ofList long)
  | '-' :: flag :: flags => (flag :: flags).foldlM setShort options
  | _ => options.setContents arg

def addAll (options : Options) : List String → Option Options
  | [] => some options
  | "--" :: rest => rest.foldlM setContents options
  | "--max-depth" :: value :: rest => do (← options.setMaxDepth value.toList).addAll rest
  | arg :: rest => do (← options.add arg).addAll rest

end Options

def parseArguments (args : List String) : Option Options := Options.initial.addAll args

structure Output where
  code : Nat
  stdout : String
  stderr : String

namespace Output

def success (stdout : String) : Output := ⟨0, stdout, ""⟩

def failure (message : String) : Output := ⟨1, "", message ++ "\n"⟩

end Output

def padRight (width : Nat) (text : String) : String :=
  text ++ String.ofList (List.replicate (width - text.length) ' ')

def padLeft (width : Nat) (text : String) : String :=
  String.ofList (List.replicate (width - text.length) ' ') ++ text

def glyphLine (glyph : Glyph) : String :=
  s!"{glyph.symbol}  {padRight 4 glyph.ascii} {padRight 18 glyph.name} {glyph.kind.name}\n"

/-- A character of a token's image, as shown in a listing. -/
def shown (c : Char) : List Char :=
  if c = '\x22' ∨ c = '\\' then ['\\', c]
  else if c = '\n' then ['\\', 'n']
  else if c = '\t' then ['\\', 't']
  else if c = '\r' then ['\\', 'r']
  else if c = '\x00' then ['\\', '0']
  else [c]

def shownImage (image : String) : String :=
  String.ofList ('\x22' :: image.toList.flatMap shown ++ ['\x22'])

def tokenLine (token : Token) : String :=
  s!"{padLeft 4 token.line.repr}  {padRight 18 token.kind.name} {shownImage token.image}\n"

def tokenListing (source : String) : Except Failure String := do
  let tokens ← (scan source).mapError .scanning
  return String.join (tokens.map tokenLine)

def evaluation (limit : Nat) (source : String) : Except Failure String := do
  match ← (submitWithLimit limit source Env.empty).1 with
  | some value => return value.display ++ "\n"
  | none => return ""

def runSource (options : Options) (source : String) : Output :=
  let outcome :=
    if options.tokens then tokenListing source
    else evaluation (options.maxDepth.getD defaultLimit) source
  match outcome with
  | .ok text => .success text
  | .error failure => .failure failure.message

/-- Answers a request. `readFile` gives the contents of a file, if it can be read. -/
def run {m : Type → Type} [Monad m] (readFile : String → m (Option String)) (options : Options) :
    m Output := do
  if options.glyphs then return .success (String.join (Glyph.table.map glyphLine))
  match options.contents with
  | none =>
    return .failure "Nothing to evaluate. Pass a program, or a path together with --file."
  | some contents =>
    if options.file then
      match ← readFile contents with
      | some source => return runSource options source
      | none =>
        return .failure
          s!"Failed to read the input file '{contents}'. Perhaps this file does not exist?"
    else return runSource options contents

end Tacit.CommandLine
