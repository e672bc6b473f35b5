import AtlasNative.Interpreter

/-!
# When no operand is missing

The kinds of the expressions on the stack decide whether a word throws. `wellShaped`
runs a program on kinds alone; the interpreter returns normally exactly on the
programs that it accepts.
-/

namespace AtlasNative

open Context
set_option autoImplicit false

/-- What a word can see of an operand; a literal is a number when `std::stod` takes it. -/
inductive Kind where
  | literal (number : Bool)
  | list
  | query
  | value
  | results
  deriving DecidableEq

abbrev Shape := List Kind

/-- The relational words never throw: they keep what they have popped. -/
def shapeRelop : Shape → Option Shape
  | .literal _ :: .literal _ :: shape => some (.query :: shape)
  | .literal _ :: _ :: shape => some shape
  | _ :: shape => some shape
  | [] => some []

def shapeHas : Shape → Option Shape
  | .literal _ :: shape => some (.query :: shape)
  | _ => none

/-- `:in` needs a literal below a list, but takes anything else than a list. -/
def shapeIn : Shape → Option Shape
  | .list :: .literal _ :: shape => some (.query :: shape)
  | .list :: _ => none
  | _ :: shape => some shape
  | [] => none

def shapeRegex : Shape → Option Shape
  | .literal _ :: .literal _ :: shape => some (.query :: shape)
  | _ => none

def shapeUnary (result : Kind) : Shape → Option Shape
  | .query :: shape => some (result :: shape)
  | _ :: shape => some shape
  | [] => none

def shapeBinary : Shape → Option Shape
  | .query :: .query :: shape => some (.query :: shape)
  | _ :: _ :: shape => some shape
  | _ => none

/-- `:by`, `:keep-tags` and `:drop-tags` convert a literal below their list. -/
def shapeKeys : Shape → Option Shape
  | _ :: .literal false :: _ => none
  | .list :: .literal true :: shape => some (.results :: shape)
  | .list :: .query :: shape => some (.results :: shape)
  | .list :: .value :: shape => some (.results :: shape)
  | _ :: _ :: shape => some shape
  | _ => none

/-- The shape a word leaves, or nothing when it throws. -/
def Word.shape : Word → Shape → Option Shape
  | HasKeyWord => shapeHas
  | EqualWord | GtWord | GeWord | LtWord | LeWord => shapeRelop
  | InWord => shapeIn
  | RegexWord _ => shapeRegex
  | NotWord => shapeUnary .query
  | AndWord | OrWord => shapeBinary
  | FalseWord | TrueWord => fun shape => some (.query :: shape)
  | CountWord | SumWord | MinWord | MaxWord | AvgWord => shapeUnary .value
  | GroupByWord | DropKeepTagsWord _ => shapeKeys
  | AllWord => shapeUnary .results

/-- Unknown words are ignored. -/
def wordShape (token : StrRef) (shape : Shape) : Option Shape :=
  match ClientVocabulary.words.lookup (Literal.GetWord token) with
  | none => some shape
  | some w => w.shape shape

/-- Every word outside of parentheses finds its operands, up to an unbalanced `)`. -/
def wellShaped (rt : Runtime) : ℕ → List StrRef → Shape → Bool
  | _, [], _ => true
  | list_depth, token :: tokens, shape =>
    if token = lparen then
      wellShaped rt (list_depth + 1) tokens (if list_depth = 0 then .list :: shape else shape)
    else if token = rparen then
      match list_depth with
      | 0 => true
      | n + 1 => wellShaped rt n tokens shape
    else if 0 < list_depth then wellShaped rt list_depth tokens shape
    else if Literal.IsWord token then
      match wordShape token shape with
      | none => false
      | some shape => wellShaped rt list_depth tokens shape
    else wellShaped rt list_depth tokens (.literal (rt.stod token).isSome :: shape)

section Abstraction
variable (rt : Runtime)

def kindOf : Expression → Kind
  | .literal s => .literal (rt.stod s).isSome
  | .list _ => .list
  | .query _ => .query
  | .value _ => .value
  | .results _ => .results

/-- The result of a run on a stack and of one on its kinds. -/
def Abstracts {α : Type} :
    EStateM.Result StdException Context α → Option Shape → Prop
  | .ok _ context, some shape => context.map (kindOf rt) = shape
  | .error _ _, none => True
  | _, _ => False

theorem Abstracts.ok_iff {α : Type} {r : EStateM.Result StdException Context α}
    {o : Option Shape} (h : Abstracts rt r o) :
    (∃ a context, r = .ok a context ∧ o = some (context.map (kindOf rt))) ∨
      (∃ e context, r = .error e context ∧ o = none) := by
  cases r with
  | ok a context =>
    cases o with
    | some shape => exact Or.inl ⟨a, context, rfl, congrArg some h.symm⟩
    | none => exact False.elim h
  | error e context =>
    cases o with
    | some shape => exact False.elim h
    | none => exact Or.inr ⟨e, context, rfl, rfl⟩

variable (context : Context)

theorem do_has_shape : Abstracts rt (do_has.run context) (shapeHas (context.map (kindOf rt))) := by
  cases context with
  | nil => trivial
  | cons e context => cases e <;> first | rfl | trivial

theorem do_relop_shape (op : RelOp) :
    Abstracts rt ((do_relop op).run context) (shapeRelop (context.map (kindOf rt))) := by
  rcases context with _ | ⟨e1, _ | ⟨e2, context⟩⟩
  · rfl
  · cases e1 <;> rfl
  · cases e1 <;> cases e2 <;> rfl

theorem do_in_shape : Abstracts rt (do_in.run context) (shapeIn (context.map (kindOf rt))) := by
  rcases context with _ | ⟨e1, _ | ⟨e2, context⟩⟩
  · trivial
  · cases e1 <;> first | rfl | trivial
  · cases e1 with
    | list list => cases e2 <;> first | rfl | trivial
    | _ => rfl

theorem do_regex_shape (ignore_case : Bool) :
    Abstracts rt ((do_regex ignore_case).run context) (shapeRegex (context.map (kindOf rt))) := by
  rcases context with _ | ⟨e1, _ | ⟨e2, context⟩⟩
  · trivial
  · cases e1 <;> trivial
  · cases e1 with
    | literal s => cases e2 <;> first | rfl | trivial
    | _ => trivial

theorem do_unary_shape (f : Query → Expression) (msg : String) (result : Kind)
    (hf : ∀ q, kindOf rt (f q) = result) :
    Abstracts rt ((do_unary f msg).run context)
      (shapeUnary result (context.map (kindOf rt))) := by
  cases context with
  | nil => trivial
  | cons e context =>
    cases e with
    | query q => exact congrArg (· :: context.map (kindOf rt)) (hf q)
    | _ => rfl

theorem do_binary_shape (f : Query → Query → Query) (msg : String) :
    Abstracts rt ((do_binary f msg).run context) (shapeBinary (context.map (kindOf rt))) := by
  rcases context with _ | ⟨e1, _ | ⟨e2, context⟩⟩
  · trivial
  · cases e1 <;> trivial
  · cases e1 <;> cases e2 <;> rfl

theorem run_do_keys (f : StringRefs → ValueExpression → MultipleResults) (msg : String)
    (k e : Expression) :
    (do_keys rt f msg).run (k :: e :: context) =
      (value_expr_from rt e >>= push_keys f msg k).run context := rfl

theorem value_expr_from_no_number {s : StrRef} (hs : rt.stod s = none) :
    value_expr_from rt (.literal s) = throw (.logic_error "stod") ∧
      kindOf rt (.literal s) = .literal false := by
  constructor
  · simp only [value_expr_from, hs]
  · simp [kindOf, hs]

theorem value_expr_from_number {s : StrRef} {n : ExactDouble.Double}
    (hs : rt.stod s = some n) :
    value_expr_from rt (.literal s) = pure (some (.constant n)) ∧
      kindOf rt (.literal s) = .literal true := by
  constructor
  · simp only [value_expr_from, hs]
  · simp [kindOf, hs]

theorem do_keys_shape (f : StringRefs → ValueExpression → MultipleResults) (msg : String) :
    Abstracts rt ((do_keys rt f msg).run context) (shapeKeys (context.map (kindOf rt))) := by
  rcases context with _ | ⟨e1, _ | ⟨e2, context⟩⟩
  · trivial
  · cases e1 <;> trivial
  · rw [run_do_keys]
    cases e2 with
    | literal s =>
      cases hs : rt.stod s with
      | none =>
        obtain ⟨hvalue, hkind⟩ := value_expr_from_no_number rt hs
        rw [hvalue, List.map_cons, List.map_cons, hkind]
        trivial
      | some n =>
        obtain ⟨hvalue, hkind⟩ := value_expr_from_number rt hs
        rw [hvalue, List.map_cons, List.map_cons, hkind]
        cases e1 <;> rfl
    | _ => cases e1 <;> rfl

theorem Word.Execute_shape (w : Word) :
    Abstracts rt ((w.Execute rt).run context) (w.shape (context.map (kindOf rt))) := by
  cases w with
  | HasKeyWord => exact do_has_shape rt context
  | EqualWord => exact do_relop_shape rt context .EQ
  | GtWord => exact do_relop_shape rt context .GT
  | GeWord => exact do_relop_shape rt context .GE
  | LtWord => exact do_relop_shape rt context .LT
  | LeWord => exact do_relop_shape rt context .LE
  | InWord => exact do_in_shape rt context
  | RegexWord ignore_case => exact do_regex_shape rt context ignore_case
  | NotWord => exact do_unary_shape rt context _ _ .query fun _ => rfl
  | AndWord => exact do_binary_shape rt context _ _
  | OrWord => exact do_binary_shape rt context _ _
  | FalseWord => rfl
  | TrueWord => rfl
  | CountWord => exact do_unary_shape rt context _ _ .value fun _ => rfl
  | SumWord => exact do_unary_shape rt context _ _ .value fun _ => rfl
  | MinWord => exact do_unary_shape rt context _ _ .value fun _ => rfl
  | MaxWord => exact do_unary_shape rt context _ _ .value fun _ => rfl
  | AvgWord => exact do_unary_shape rt context _ _ .value fun _ => rfl
  | GroupByWord => exact do_keys_shape rt context _ _
  | DropKeepTagsWord keep => exact do_keys_shape rt context _ _
  | AllWord => exact do_unary_shape rt context _ _ .results fun _ => rfl

theorem ClientVocabulary.Execute_shape (token : StrRef) :
    Abstracts rt ((ClientVocabulary.Execute rt (Literal.GetWord token)).run context)
      (wordShape token (context.map (kindOf rt))) := by
  unfold ClientVocabulary.Execute wordShape
  cases ClientVocabulary.words.lookup (Literal.GetWord token) with
  | none => rfl
  | some w => exact Word.Execute_shape rt context w

end Abstraction

/-- Whether a run of the loop ends normally. Inside of parentheses the top of the
stack is the list that is being filled, so that only words can throw. -/
theorem run_tokens_ok_iff (rt : Runtime) (tokens : List StrRef) (list_depth : ℕ)
    (context : Context)
    (htop : 0 < list_depth → ∃ list rest, context = .list list :: rest) :
    (∃ r context', (run_tokens rt list_depth tokens).run context = .ok r context') ↔
      wellShaped rt list_depth tokens (context.map (kindOf rt)) = true := by
  induction tokens generalizing list_depth context with
  | nil => exact ⟨fun _ => rfl, fun _ => ⟨none, context, rfl⟩⟩
  | cons token tokens ih =>
    -- what is pushed to a list leaves the kinds as they are
    have hpush : ∀ n, 0 < list_depth →
        ((∃ r context', (do PushToList token; run_tokens rt n tokens).run context =
            .ok r context') ↔
          wellShaped rt n tokens (context.map (kindOf rt)) = true) := by
      intro n hdepth
      obtain ⟨list, rest, rfl⟩ := htop hdepth
      exact ih n (.list (list ++ [token]) :: rest) fun _ => ⟨_, _, rfl⟩
    by_cases hl : token = lparen
    · subst hl
      by_cases hdepth : list_depth = 0
      · subst hdepth
        have hrun := ih 1 (.list [] :: context) fun _ => ⟨_, _, rfl⟩
        simpa [run_tokens, wellShaped, Push, kindOf] using hrun
      · have hrun := hpush (list_depth + 1) (Nat.pos_of_ne_zero hdepth)
        simpa [run_tokens, wellShaped, hdepth] using hrun
    · by_cases hr : token = rparen
      · subst hr
        rcases list_depth with _ | _ | n
        · simp [run_tokens, wellShaped, hl]
        · have hrun := ih 0 context fun h => absurd h (lt_irrefl 0)
          simpa [run_tokens, wellShaped, hl] using hrun
        · have hrun := hpush (n + 1) (Nat.succ_pos (n + 1))
          simpa [run_tokens, wellShaped, hl] using hrun
      · by_cases hdepth : 0 < list_depth
        · have hrun := hpush list_depth hdepth
          simpa [run_tokens, wellShaped, hl, hr, hdepth] using hrun
        · obtain rfl : list_depth = 0 := Nat.eq_zero_of_not_pos hdepth
          by_cases hw : Literal.IsWord token = true
          · have hword := ClientVocabulary.Execute_shape rt context token
            rcases hword.ok_iff with ⟨r, context', hrun, hshape⟩ | ⟨e, context', hrun, hshape⟩
            · have hnext := ih 0 context' fun h => absurd h (lt_irrefl 0)
              simpa [run_tokens, wellShaped, hl, hr, hw, hrun, hshape] using hnext
            · simp [run_tokens, wellShaped, hl, hr, hw, hrun, hshape]
          · have hnext := ih 0 (.literal token :: context) fun h => absurd h (lt_irrefl 0)
            simpa [run_tokens, wellShaped, hl, hr, hw, Push, kindOf] using hnext

/-- The program is split without an overflow, and its words find their operands. -/
def WellShapedProgram (rt : Runtime) (program : String) : Prop :=
  ∃ tokens, interpreter.split program [] = .ok tokens ∧ wellShaped rt 0 tokens [] = true

theorem execStack_ok_iff (rt : Runtime) (program : String) :
    (∃ context, Interpreter.execStack rt program = .ok context) ↔
      WellShapedProgram rt program := by
  unfold Interpreter.execStack Interpreter.Execute WellShapedProgram
  cases hsplit : interpreter.split program [] with
  | error fault => simp [bind, Except.bind]
  | ok tokens =>
    have htokens := run_tokens_ok_iff rt tokens 0 [] fun h => absurd h (lt_irrefl 0)
    rw [List.map_nil] at htokens
    simp only [bind, Except.bind, Except.ok.injEq, exists_eq_left', ← htokens, do_program_zero]
    cases h : (run_tokens rt 0 tokens).run [] <;> simp

theorem exists_map_eq_ok_iff {α β : Type} (x : Except Fault α) (f : α → β) :
    (∃ b, x.map f = .ok b) ↔ ∃ a, x = .ok a := by
  cases x <;> simp [Except.map]

theorem eval_ok_iff (rt : Runtime) (program : String) (measurements : TagsValuePairs) :
    (∃ results, Evaluator.eval rt program measurements = .ok results) ↔
      measurements = [] ∨ WellShapedProgram rt program := by
  unfold Evaluator.eval
  cases measurements with
  | nil => simp
  | cons m measurements => simp [exists_map_eq_ok_iff, execStack_ok_iff]

/-- `eval` and `get_query` return normally exactly on the programs whose words find
their operands, for tokens that are read without an overflow of `int`. -/
theorem eval_get_query_ok_iff (rt : Runtime) (program : String)
    (measurements : TagsValuePairs) :
    ((∃ results, Evaluator.eval rt program measurements = .ok results) ∧
        ∃ q, Evaluator.get_query rt program = .ok q) ↔
      WellShapedProgram rt program := by
  unfold Evaluator.get_query Interpreter.GetQuery
  rw [eval_ok_iff, exists_map_eq_ok_iff, execStack_ok_iff]
  constructor
  · exact fun h => h.2
  · exact fun h => ⟨Or.inr h, h⟩

/-- `:has` on the empty stack: the exception leaves both functions. -/
theorem has_without_operand :
    ¬ ((∃ results, Evaluator.eval plainRuntime ":has" [.of ∅ 0] = .ok results) ∧
      ∃ q, Evaluator.get_query plainRuntime ":has" = .ok q) := by
  intro h
  rcases h with ⟨_, q, hq⟩
  have herror : Evaluator.get_query plainRuntime ":has" = .error .exception := by
    unfold Evaluator.get_query Interpreter.GetQuery Interpreter.execStack Interpreter.Execute
    rw [interpreter.split_eq (by decide)]
    rfl
  rw [herror] at hq
  contradiction

end AtlasNative
