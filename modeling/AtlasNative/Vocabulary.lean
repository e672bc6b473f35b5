import AtlasNative.Expression

/-!
# The stack and the words of the vocabulary

`Context` is the stack of a program, its top first. A word can throw, which keeps
the operands that were popped off the stack, or return an error text.
-/

namespace AtlasNative

set_option autoImplicit false

abbrev Context := List Expression

/-- The exceptions that words raise. -/
inductive StdException where
  | underflow_error (what : String)
  | runtime_error (what : String)
  /-- `std::stod` throws one of two logic errors. -/
  | logic_error (what : String)
  deriving DecidableEq

namespace StdException

def what : StdException → String
  | underflow_error w => w
  | runtime_error w => w
  | logic_error w => w

end StdException

abbrev Exec := EStateM StdException Context

@[simp] theorem run_discard {α : Type} (x : Exec α) (context : Context) :
    (discard x).run context =
      match x.run context with
      | .ok _ context' => .ok ⟨⟩ context'
      | .error e context' => .error e context' := by
  have hbind : discard x = x >>= fun _ => pure ⟨⟩ := (bind_pure_comp _ x).symm
  rw [hbind, EStateM.run_bind]
  cases x.run context <;> rfl

abbrev OptionalString := Option StrRef

def optionalString (string : String) : OptionalString := some (intern_str string)

namespace Context

def underflow : StdException :=
  .underflow_error "Stack underflow: expecting a string on the stack."

def PopExpression : Exec Expression := do
  match ← get with
  | [] => throw underflow
  | top :: stack =>
    set stack
    return top

def PopString : Exec StrRef := do
  match ← PopExpression with
  | .literal s => return s
  | _ => throw (.runtime_error "Wrong type. Expecting a literal string.")

def Push (expression : Expression) : Exec Unit := modify (expression :: ·)

/-- Adds a literal to the list on top of the stack. -/
def PushToList (expression : StrRef) : Exec Unit := do
  match ← get with
  | [] => throw underflow
  | .list list :: stack => set (.list (list ++ [expression]) :: stack)
  | _ => throw (.runtime_error "Wrong type. Expecting a list.")

end Context

open Context

inductive Word where
  | HasKeyWord | EqualWord | GtWord | GeWord | LtWord | LeWord | InWord
  | RegexWord (ignore_case_ : Bool)
  | NotWord | AndWord | OrWord | FalseWord | TrueWord
  | CountWord | SumWord | MinWord | MaxWord | AvgWord
  | GroupByWord
  | DropKeepTagsWord (keep_ : Bool)
  | AllWord
  deriving DecidableEq

/-- The relational words turn an exception into an error text. -/
def do_relop (op : RelOp) : Exec OptionalString :=
  tryCatch
    (do
      let v ← PopString
      let k ← PopString
      Push (.query (.relop ⟨k, v, op⟩))
      return none)
    fun e => return optionalString e.what

def do_has : Exec OptionalString := do
  let k ← PopString
  Push (.query (.hasKey k))
  return none

def do_in : Exec OptionalString := do
  let list_expr ← PopExpression
  match list_expr with
  | .list list =>
    let key ← PopString
    Push (.query (.in_ key list))
    return none
  | _ => return optionalString ":in expects a list on the stack"

def do_regex (ignore_case : Bool) : Exec OptionalString := do
  let v ← PopString
  let k ← PopString
  Push (.query (.regex k v.str ignore_case))
  return none

/-- `:and` and `:or`, which differ in the helper they call and in their error text. -/
def do_binary (f : Query → Query → Query) (msg : String) : Exec OptionalString := do
  let e2 ← PopExpression
  let e1 ← PopExpression
  match e1, e2 with
  | .query q1, .query q2 =>
    Push (.query (f q1 q2))
    return none
  | _, _ => return optionalString msg

def do_unary (f : Query → Expression) (msg : String) : Exec OptionalString := do
  let e ← PopExpression
  match e with
  | .query q =>
    Push (f q)
    return none
  | _ => return optionalString msg

namespace aggregation

def count (filter : Query) : Expression := .value (.aggregate .COUNT filter)

def sum (filter : Query) : Expression := .value (.aggregate .SUM filter)

def min (filter : Query) : Expression := .value (.aggregate .MIN filter)

def max (filter : Query) : Expression := .value (.aggregate .MAX filter)

def avg (filter : Query) : Expression := .value (.aggregate .AVG filter)

end aggregation

/-- A constant, a query under the default `:sum`, or a value expression. -/
def value_expr_from (rt : Runtime) : Expression → Exec (Option ValueExpression)
  | .literal s => do
    match rt.stod s with
    | some n => return some (.constant n)
    | none => throw (.logic_error "stod")
  | .query q => return some (.aggregate .SUM q)
  | .value e => return some e
  | _ => return none

/-- The end of `:by`, `:keep-tags` and `:drop-tags`, with both operands at hand. -/
def push_keys (f : StringRefs → ValueExpression → MultipleResults) (msg : String)
    (k : Expression) (value_expr : Option ValueExpression) : Exec OptionalString :=
  match k, value_expr with
  | .list keys, some expr => do
    Push (.results (f keys expr))
    return none
  | _, _ => return optionalString msg

/-- The second operand is popped, and converted, also when the first is no list. -/
def do_keys (rt : Runtime) (f : StringRefs → ValueExpression → MultipleResults) (msg : String) :
    Exec OptionalString := do
  let k ← PopExpression
  let value_expr ← value_expr_from rt (← PopExpression)
  push_keys f msg k value_expr

namespace Word

def Execute (rt : Runtime) : Word → Exec OptionalString
  | HasKeyWord => do_has
  | EqualWord => do_relop .EQ
  | GtWord => do_relop .GT
  | GeWord => do_relop .GE
  | LtWord => do_relop .LT
  | LeWord => do_relop .LE
  | InWord => do_in
  | RegexWord ignore_case => do_regex ignore_case
  | NotWord =>
    do_unary (fun q => .query (query.not_q q)) ":not expects a query expression on the stack"
  | AndWord => do_binary query.and_q ":and expects two queries on the stack"
  | OrWord => do_binary query.or_q ":or expects two queries or a query and a constant"
  | FalseWord => do
    Push (.query .false_)
    return none
  | TrueWord => do
    Push (.query .true_)
    return none
  | CountWord => do_unary aggregation.count ":count was expecting a query on the stack"
  | SumWord => do_unary aggregation.sum ":sum was expecting a query on the stack"
  | MinWord => do_unary aggregation.min ":min was expecting a query on the stack"
  | MaxWord => do_unary aggregation.max ":max was expecting a query on the stack"
  | AvgWord => do_unary aggregation.avg ":avg was expecting a query on the stack"
  | GroupByWord =>
    do_keys rt .groupBy
      ":by was expecting a list and a data expression or query on the stack"
  | DropKeepTagsWord keep =>
    do_keys rt (fun keys expr => KeepOrDropTags keys expr keep)
      ((if keep then ":keep" else ":drop") ++
        "-tags was expecting a list and a data expression or query on the stack")
  | AllWord =>
    do_unary (fun q => .results (.all q)) ":all was expecting a query on the stack"

end Word

namespace ClientVocabulary

def words : List (String × Word) :=
  [("has", .HasKeyWord), ("eq", .EqualWord), ("gt", .GtWord), ("ge", .GeWord),
    ("lt", .LtWord), ("le", .LeWord), ("in", .InWord), ("re", .RegexWord false),
    ("reic", .RegexWord true), ("not", .NotWord), ("and", .AndWord), ("or", .OrWord),
    ("false", .FalseWord), ("true", .TrueWord), ("count", .CountWord), ("sum", .SumWord),
    ("min", .MinWord), ("max", .MaxWord), ("avg", .AvgWord), ("by", .GroupByWord),
    ("keep-tags", .DropKeepTagsWord true), ("drop-tags", .DropKeepTagsWord false),
    ("all", .AllWord)]

def Execute (rt : Runtime) (token : String) : Exec OptionalString :=
  match words.lookup token with
  | none => return optionalString ("Unknown word " ++ token)
  | some w => w.Execute rt

end ClientVocabulary

end AtlasNative
