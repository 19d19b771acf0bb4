import Tacit.Eval
import Tacit.Node.Grammar
import Tacit.Token.Scan
import Tacit.Value.Display

/-! Sessions: source texts submitted one after another to one environment. -/
namespace Tacit

inductive Failure where
  | scanning (error : LexError)
  | parsing (error : ParseError)
  | running (error : RuntimeError)

namespace Failure

def message : Failure → String
  | scanning error => error.report LexFault.message
  | parsing error => error.report ParseFault.message
  | running error => error.report Fault.message

def line : Failure → Nat
  | scanning error => error.line
  | parsing error => error.line
  | running error => error.line

end Failure

def readProgram (limit : Nat) (source : String) : Except Failure (List Node) := do
  let tokens ← (scan source).mapError .scanning
  (parse limit tokens).mapError .parsing

def runProgram (program : List Node) (env : Env) : Except Failure (Option Value) × Env :=
  let (outcome, env) := (evalProgram program).run.run env
  (outcome.mapError .running, env)

/-- Evaluates a source text in an environment. A text that is no program leaves it alone. -/
def submitWithLimit (limit : Nat) (source : String) (env : Env) :
    Except Failure (Option Value) × Env :=
  match readProgram limit source with
  | .error failure => (.error failure, env)
  | .ok program => runProgram program env

def submit (source : String) (env : Env) : Except Failure (Option Value) × Env :=
  submitWithLimit defaultLimit source env

end Tacit
