import AtlasNative.Tokenizer
import AtlasNative.Vocabulary

/-!
# The interpreter and the evaluator

Literals are pushed, words are executed, and what stands between parentheses is
collected in a list. `eval` and `get_query` are `noexcept` in the code: an exception
of a word ends the process.
-/

namespace AtlasNative

open Context
set_option autoImplicit false

def UNBALANCED : OptionalString := optionalString "Unbalanced parenthesis"

def lparen : StrRef := intern_str "("

def rparen : StrRef := intern_str ")"

/-- The loop of `do_program`. Its `list_depth` is an `int`, and takes as many opening
parentheses to overflow as a program of `2 ^ 32` bytes holds. -/
def run_tokens (rt : Runtime) : ℕ → List StrRef → Exec OptionalString
  | _, [] => return none
  | list_depth, token :: tokens =>
    if token = lparen then do
      if list_depth = 0 then Push (.list []) else PushToList token
      run_tokens rt (list_depth + 1) tokens
    else if token = rparen then
      match list_depth with
      | 0 => return UNBALANCED
      | 1 => run_tokens rt 0 tokens
      | n + 2 => do
        PushToList token
        run_tokens rt (n + 1) tokens
    else do
      if 0 < list_depth then PushToList token
      else if Literal.IsWord token then
        -- the error text of a word is dropped
        discard (ClientVocabulary.Execute rt (Literal.GetWord token))
      else Push (.literal token)
      run_tokens rt list_depth tokens

def do_program (rt : Runtime) (tokens : List StrRef) (depth : ℕ) : Exec OptionalString :=
  if tokens.isEmpty then return (if depth = 0 then none else UNBALANCED)
  else run_tokens rt depth tokens

theorem do_program_zero (rt : Runtime) (tokens : List StrRef) :
    do_program rt tokens 0 = run_tokens rt 0 tokens := by
  cases tokens <;> rfl

namespace Interpreter

/-- What `do_program` returns is dropped. -/
def Execute (rt : Runtime) (program : String) (context : Context) : Except Fault Context := do
  let tokens ← interpreter.split program []
  match (do_program rt tokens 0).run context with
  | .ok _ context => .ok context
  | .error _ _ => .error .exception

/-- The stack that a program leaves, started on an empty one. -/
def execStack (rt : Runtime) (program : String) : Except Fault Context := Execute rt program []

theorem execStack_eq_ok {rt : Runtime} {program : String} {tokens : List StrRef}
    {r : OptionalString} {context : Context} (hsplit : interpreter.split program [] = .ok tokens)
    (hrun : (run_tokens rt 0 tokens).run [] = .ok r context) :
    execStack rt program = .ok context := by
  rw [execStack, Execute, hsplit]
  change (match (do_program rt tokens 0).run [] with
    | .ok _ context => Except.ok context
    | .error _ _ => .error Fault.exception) = _
  rw [do_program_zero, hrun]

def stackQuery : Context → Query
  | [.query q] => q
  | [.value e] => e.GetQuery
  | [.results e] => e.GetQuery
  | _ => .false_

def GetQuery (rt : Runtime) (program : String) : Except Fault Query :=
  (execStack rt program).map stackQuery

end Interpreter

namespace Evaluator

/-- The loop that pops every expression and gathers the results. -/
def evalStack (rt : Runtime) (measurements : TagsValuePairs) (context : Context) :
    TagsValuePairs :=
  context.flatMap fun e =>
    match GetMultipleResultsExpr e with
    | some e_by => e_by.Apply rt measurements
    | none => []

theorem evalStack_results (rt : Runtime) (measurements : TagsValuePairs) (e : MultipleResults) :
    evalStack rt measurements [.results e] = e.Apply rt measurements :=
  List.append_nil _

theorem evalStack_value (rt : Runtime) (measurements : TagsValuePairs) (e : ValueExpression) :
    evalStack rt measurements [.value e] = SingletonValueExpr.Apply rt e measurements :=
  List.append_nil _

def eval (rt : Runtime) (expression : String) (measurements : TagsValuePairs) :
    Except Fault TagsValuePairs :=
  if measurements.isEmpty then .ok []
  else (Interpreter.execStack rt expression).map (evalStack rt measurements)

def get_query (rt : Runtime) (expression : String) : Except Fault Query :=
  Interpreter.GetQuery rt expression

end Evaluator

end AtlasNative
