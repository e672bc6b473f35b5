import AtlasNative.OperandSafety

/-!
# Programs that are not well formed

`do_program` has three ways to learn that a program is malformed: a `)` too many, a list
that is still open at the end, and the error text of a word. It reports the first one only,
and `GetQuery` looks at the stack without asking. `loopAfter` says where the loop stands
behind some of the tokens, and `shapeAfter` says the same of the kinds on the stack.
-/

namespace AtlasNative

open Context
set_option autoImplicit false

@[simp] theorem run_map {α β : Type} (f : α → β) (x : Exec α) (context : Context) :
    (f <$> x).run context =
      match x.run context with
      | .ok a context' => .ok (f a) context'
      | .error e context' => .error e context' := by
  rw [map_eq_pure_bind, EStateM.run_bind]
  cases x.run context <;> rfl

/-! The loop, token by token. -/

def depthStep (depth : ℕ) (token : StrRef) : ℕ :=
  if token = lparen then depth + 1 else if token = rparen then depth - 1 else depth

section Loop
variable (rt : Runtime)

/-- One turn of the loop; nothing when it returns or when a word throws. -/
def loopStep (state : ℕ × Context) (token : StrRef) : Option (ℕ × Context) :=
  if token = rparen ∧ state.1 = 0 then none
  else
    match (run_tokens rt state.1 [token]).run state.2 with
    | .ok _ context => some (depthStep state.1 token, context)
    | .error _ _ => none

def loopAfter (state : ℕ × Context) (tokens : List StrRef) : Option (ℕ × Context) :=
  tokens.foldlM (loopStep rt) state

theorem run_then (x : Exec Unit) (depth : ℕ) (tokens : List StrRef) (context : Context) :
    (x >>= fun _ => run_tokens rt depth tokens).run context =
      match (x >>= fun _ => run_tokens rt depth []).run context with
      | .ok _ context' => (run_tokens rt depth tokens).run context'
      | .error e context' => .error e context' := by
  rw [EStateM.run_bind, EStateM.run_bind]
  cases x.run context <;> rfl

theorem run_tokens_cons (depth : ℕ) (token : StrRef) (tokens : List StrRef) (context : Context) :
    (run_tokens rt depth (token :: tokens)).run context =
      if token = rparen ∧ depth = 0 then .ok UNBALANCED context
      else
        match (run_tokens rt depth [token]).run context with
        | .ok _ context' => (run_tokens rt (depthStep depth token) tokens).run context'
        | .error e context' => .error e context' := by
  by_cases hl : token = lparen
  · subst hl
    have hne : lparen ≠ rparen := by decide
    by_cases hdepth : depth = 0
    · subst hdepth
      simpa [run_tokens, depthStep, hne] using run_then rt (Push (.list [])) 1 tokens context
    · simpa [run_tokens, depthStep, hne, hdepth] using
        run_then rt (PushToList lparen) (depth + 1) tokens context
  · by_cases hr : token = rparen
    · subst hr
      rcases depth with _ | _ | n
      · simp [run_tokens, hl]
      · simp [run_tokens, hl, depthStep]
      · simpa [run_tokens, hl, depthStep] using
          run_then rt (PushToList rparen) (n + 1) tokens context
    · by_cases hdepth : 0 < depth
      · simpa [run_tokens, hl, hr, hdepth, depthStep] using
          run_then rt (PushToList token) depth tokens context
      · obtain rfl : depth = 0 := Nat.eq_zero_of_not_pos hdepth
        by_cases hw : Literal.IsWord token = true
        · simpa [run_tokens, hl, hr, hw, depthStep] using
            run_then rt (discard (ClientVocabulary.Execute rt (Literal.GetWord token))) 0 tokens
              context
        · simpa [run_tokens, hl, hr, hw, depthStep] using
            run_then rt (Push (.literal token)) 0 tokens context

variable {rt}

theorem run_tokens_of_loopStep {depth depth' : ℕ} {context context' : Context} {token : StrRef}
    (h : loopStep rt (depth, context) token = some (depth', context')) (tokens : List StrRef) :
    (run_tokens rt depth (token :: tokens)).run context =
      (run_tokens rt depth' tokens).run context' := by
  rw [run_tokens_cons]
  unfold loopStep at h
  split at h
  · cases h
  · rename_i hclose
    rw [if_neg hclose]
    dsimp only at h
    cases hrun : (run_tokens rt depth [token]).run context with
    | ok r context₁ =>
      rw [hrun] at h
      cases h
      rfl
    | error e context₁ =>
      rw [hrun] at h
      cases h

theorem run_tokens_append {pre : List StrRef} {depth depth' : ℕ} {context context' : Context}
    (h : loopAfter rt (depth, context) pre = some (depth', context')) (post : List StrRef) :
    (run_tokens rt depth (pre ++ post)).run context =
      (run_tokens rt depth' post).run context' := by
  induction pre generalizing depth context with
  | nil =>
    cases h
    rfl
  | cons token pre ih =>
    rw [loopAfter, List.foldlM_cons, Option.bind_eq_bind, Option.bind_eq_some_iff] at h
    obtain ⟨⟨depth₁, context₁⟩, hstep, hrest⟩ := h
    rw [List.cons_append, run_tokens_of_loopStep hstep]
    exact ih hrest

/-- The loop ends behind its last token, at a `)` too many, or with an exception. -/
theorem run_tokens_cases (tokens : List StrRef) (depth : ℕ) (context : Context) :
    (∃ depth' context', loopAfter rt (depth, context) tokens = some (depth', context') ∧
      (run_tokens rt depth tokens).run context = .ok none context') ∨
    (∃ pre post context', tokens = pre ++ rparen :: post ∧
      loopAfter rt (depth, context) pre = some (0, context') ∧
      (run_tokens rt depth tokens).run context = .ok UNBALANCED context') ∨
    ∃ e context', (run_tokens rt depth tokens).run context = .error e context' := by
  induction tokens generalizing depth context with
  | nil => exact Or.inl ⟨depth, context, rfl, rfl⟩
  | cons token tokens ih =>
    by_cases hclose : token = rparen ∧ depth = 0
    · obtain ⟨rfl, rfl⟩ := hclose
      apply Or.inr
      apply Or.inl
      exact ⟨[], tokens, context, rfl, rfl, by rw [run_tokens_cons, if_pos ⟨rfl, rfl⟩]⟩
    · cases hrun : (run_tokens rt depth [token]).run context with
      | error e context₁ =>
        apply Or.inr
        apply Or.inr
        exact ⟨e, context₁, by rw [run_tokens_cons, if_neg hclose, hrun]⟩
      | ok r context₁ =>
        have hstep : loopStep rt (depth, context) token =
            some (depthStep depth token, context₁) := by
          unfold loopStep
          rw [if_neg hclose]
          dsimp only
          rw [hrun]
        have hafter : ∀ l, loopAfter rt (depth, context) (token :: l) =
            loopAfter rt (depthStep depth token, context₁) l := by
          intro l
          rw [loopAfter, List.foldlM_cons, hstep]
          rfl
        rw [run_tokens_of_loopStep hstep]
        rcases ih (depthStep depth token) context₁ with
          ⟨depth', context', hloop, hr⟩ | ⟨pre, post, context', rfl, hloop, hr⟩ | hthrow
        · exact Or.inl ⟨depth', context', (hafter tokens).trans hloop, hr⟩
        · apply Or.inr
          apply Or.inl
          exact ⟨token :: pre, post, context', rfl, (hafter pre).trans hloop, hr⟩
        · exact Or.inr (Or.inr hthrow)

end Loop

/-! The same on kinds. -/

section Shapes
variable (rt : Runtime)

def shapeStep (state : ℕ × Shape) (token : StrRef) : Option (ℕ × Shape) :=
  if token = lparen then
    some (state.1 + 1, if state.1 = 0 then .list :: state.2 else state.2)
  else if token = rparen then
    match state.1 with
    | 0 => none
    | n + 1 => some (n, state.2)
  else if 0 < state.1 then some state
  else if Literal.IsWord token then (wordShape token state.2).map (Prod.mk 0)
  else some (0, .literal (rt.stod token).isSome :: state.2)

def shapeAfter (state : ℕ × Shape) (tokens : List StrRef) : Option (ℕ × Shape) :=
  tokens.foldlM (shapeStep rt) state

def shapeOf (state : ℕ × Context) : ℕ × Shape := (state.1, state.2.map (kindOf rt))

/-- Inside of parentheses the list that is being filled is on top. -/
def ListOnTop (state : ℕ × Context) : Prop :=
  0 < state.1 → ∃ list rest, state.2 = .list list :: rest

variable {rt}

/-- A token inside of a list that stays open is pushed to it, whatever it is. -/
theorem loopStep_push {depth : ℕ} {token : StrRef} (hopen : 0 < depth)
    (hstay : 0 < depthStep depth token) (list : StringRefs) (rest : Context) (shape : Shape) :
    loopStep rt (depth, .list list :: rest) token =
        some (depthStep depth token, .list (list ++ [token]) :: rest) ∧
      shapeStep rt (depth, shape) token = some (depthStep depth token, shape) := by
  have hrun : (PushToList token).run (.list list :: rest) =
      .ok ⟨⟩ (.list (list ++ [token]) :: rest) := rfl
  have hne : depth ≠ 0 := Nat.ne_of_gt hopen
  by_cases hl : token = lparen
  · have hlr : lparen ≠ rparen := by decide
    subst hl
    constructor
    · simp [loopStep, run_tokens, depthStep, hlr, hne, hrun]
    · simp [shapeStep, depthStep, hne]
  · by_cases hr : token = rparen
    · subst hr
      rcases depth with _ | _ | n
      · exact absurd hopen (lt_irrefl 0)
      · simp [depthStep, hl] at hstay
      · constructor
        · simp [loopStep, run_tokens, depthStep, hl, hrun]
        · simp [shapeStep, depthStep, hl]
    · constructor
      · simp [loopStep, run_tokens, depthStep, hl, hr, hopen, hrun]
      · simp [shapeStep, depthStep, hl, hr, hopen]

/-- Outside of lists a word is executed, and a literal is pushed. -/
theorem loopStep_outside {token : StrRef} (hl : token ≠ lparen) (hr : token ≠ rparen)
    (context : Context) :
    (loopStep rt (0, context) token = none ∧
        shapeStep rt (shapeOf rt (0, context)) token = none) ∨
      ∃ state', loopStep rt (0, context) token = some state' ∧ ListOnTop state' ∧
        shapeStep rt (shapeOf rt (0, context)) token = some (shapeOf rt state') := by
  by_cases hw : Literal.IsWord token = true
  · rcases (ClientVocabulary.Execute_shape rt context token).ok_iff with
      ⟨r, context', hrun, hshape⟩ | ⟨e, context', hrun, hshape⟩
    · apply Or.inr
      refine ⟨(0, context'), ?_, fun h => absurd h (lt_irrefl 0), ?_⟩
      · simp [loopStep, run_tokens, depthStep, hl, hr, hw, hrun]
      · simp [shapeStep, shapeOf, hl, hr, hw, hshape]
    · apply Or.inl
      constructor
      · simp [loopStep, run_tokens, hl, hr, hw, hrun]
      · simp [shapeStep, shapeOf, hl, hr, hw, hshape]
  · apply Or.inr
    refine ⟨(0, .literal token :: context), ?_, fun h => absurd h (lt_irrefl 0), ?_⟩
    · simp [loopStep, run_tokens, depthStep, hl, hr, hw, Push]
    · simp [shapeStep, shapeOf, kindOf, hl, hr, hw]

theorem loopStep_shape {state : ℕ × Context} (htop : ListOnTop state) (token : StrRef) :
    (loopStep rt state token = none ∧ shapeStep rt (shapeOf rt state) token = none) ∨
      ∃ state', loopStep rt state token = some state' ∧ ListOnTop state' ∧
        shapeStep rt (shapeOf rt state) token = some (shapeOf rt state') := by
  obtain ⟨depth, context⟩ := state
  have hlr : lparen ≠ rparen := by decide
  by_cases hinside : 0 < depth ∧ 0 < depthStep depth token
  · obtain ⟨hopen, hstay⟩ := hinside
    obtain ⟨list, rest, hcontext⟩ := htop hopen
    dsimp only at hcontext
    subst hcontext
    obtain ⟨hloop, hshape⟩ := @loopStep_push rt _ _ hopen hstay list rest _
    exact Or.inr ⟨_, hloop, fun _ => ⟨_, _, rfl⟩, hshape⟩
  · by_cases hl : token = lparen
    · subst hl
      have hdepth : depth = 0 := by
        by_contra hne
        exact hinside ⟨Nat.pos_of_ne_zero hne, by simp [depthStep]⟩
      subst hdepth
      apply Or.inr
      refine ⟨(1, .list [] :: context), ?_, fun _ => ⟨_, _, rfl⟩, ?_⟩
      · simp [loopStep, run_tokens, Push, depthStep, hlr]
      · simp [shapeStep, shapeOf, kindOf]
    · by_cases hr : token = rparen
      · subst hr
        rcases depth with _ | _ | n
        · exact Or.inl ⟨by simp [loopStep], by simp [shapeStep, shapeOf, hl]⟩
        · apply Or.inr
          refine ⟨(0, context), ?_, fun h => absurd h (lt_irrefl 0), ?_⟩
          · simp [loopStep, run_tokens, depthStep, hl]
          · simp [shapeStep, shapeOf, hl]
        · exact absurd ⟨Nat.succ_pos _, by simp [depthStep, hl]⟩ hinside
      · have hdepth : depth = 0 := by
          by_contra hne
          have hopen := Nat.pos_of_ne_zero hne
          exact hinside ⟨hopen, by simpa [depthStep, hl, hr] using hopen⟩
        subst hdepth
        exact loopStep_outside hl hr context

theorem loopAfter_shape {state : ℕ × Context} (htop : ListOnTop state) (tokens : List StrRef) :
    (loopAfter rt state tokens).map (shapeOf rt) = shapeAfter rt (shapeOf rt state) tokens := by
  induction tokens generalizing state with
  | nil => rfl
  | cons token tokens ih =>
    rw [loopAfter, shapeAfter, List.foldlM_cons, List.foldlM_cons]
    rcases loopStep_shape htop token with ⟨hstep, hshape⟩ | ⟨state', hstep, htop', hshape⟩
    · rw [hstep, hshape]
      rfl
    · rw [hstep, hshape]
      exact ih htop'

/-- Where the loop stands, started on an empty stack, as far as kinds can tell. -/
theorem shapeAfter_eq_some_iff {tokens : List StrRef} {shape : Shape} :
    shapeAfter rt (0, []) tokens = some (0, shape) ↔
      ∃ context, loopAfter rt (0, []) tokens = some (0, context) ∧
        context.map (kindOf rt) = shape := by
  have hshape : (loopAfter rt (0, []) tokens).map (shapeOf rt) = shapeAfter rt (0, []) tokens :=
    loopAfter_shape (fun h => absurd h (lt_irrefl 0)) tokens
  rw [← hshape, Option.map_eq_some_iff]
  constructor
  · intro hgiven
    rcases hgiven with ⟨⟨depth, context⟩, hloop, heq⟩
    cases heq
    exact ⟨context, hloop, rfl⟩
  · intro hgiven
    rcases hgiven with ⟨context, hloop, rfl⟩
    exact ⟨(0, context), hloop, rfl⟩

end Shapes

/-! The words that return an error text, by the kinds of their operands. -/

def relopErrs : Shape → Bool
  | .literal _ :: .literal _ :: _ => false
  | _ => true

/-- Without a list on top `:in` returns an error text, also when the stack is then empty. -/
def inErrs : Shape → Bool
  | .list :: _ => false
  | _ :: _ => true
  | [] => false

def unaryErrs : Shape → Bool
  | .query :: _ => false
  | _ :: _ => true
  | [] => false

def binaryErrs : Shape → Bool
  | .query :: .query :: _ => false
  | _ :: _ :: _ => true
  | _ => false

def keysErrs : Shape → Bool
  | _ :: .literal false :: _ => false
  | .list :: .literal true :: _ => false
  | .list :: .query :: _ => false
  | .list :: .value :: _ => false
  | _ :: _ :: _ => true
  | _ => false

def Word.errs : Word → Shape → Bool
  | HasKeyWord | RegexWord _ | FalseWord | TrueWord => fun _ => false
  | EqualWord | GtWord | GeWord | LtWord | LeWord => relopErrs
  | InWord => inErrs
  | NotWord | CountWord | SumWord | MinWord | MaxWord | AvgWord | AllWord => unaryErrs
  | AndWord | OrWord => binaryErrs
  | GroupByWord | DropKeepTagsWord _ => keysErrs

def wordErrs (token : StrRef) (shape : Shape) : Bool :=
  match ClientVocabulary.words.lookup (Literal.GetWord token) with
  | none => true
  | some w => w.errs shape

section Errors
variable {rt : Runtime}

/-- The run returns an error text. -/
def ReturnsError (r : EStateM.Result StdException Context OptionalString) : Prop :=
  ∃ msg context, r = .ok (some msg) context

/-- The run returns an error text exactly when `b` says so. -/
def ErrsAs (r : EStateM.Result StdException Context OptionalString) (b : Bool) : Prop :=
  match r with
  | .ok text _ => text.isSome = b
  | .error _ _ => b = false

theorem ErrsAs.returnsError_iff {r : EStateM.Result StdException Context OptionalString}
    {b : Bool} (h : ErrsAs r b) : ReturnsError r ↔ b = true := by
  cases r with
  | ok text context =>
    cases text with
    | none =>
      have hb : b = false := h.symm
      subst hb
      constructor
      · intro hgiven
        rcases hgiven with ⟨msg, context', heq⟩
        cases heq
      · intro habs
        cases habs
    | some msg =>
      have hb : b = true := h.symm
      exact iff_of_true ⟨msg, context, rfl⟩ hb
  | error e context =>
    have hb : b = false := h
    subst hb
    constructor
    · intro hgiven
      rcases hgiven with ⟨msg, context', heq⟩
      cases heq
    · intro habs
      cases habs

variable (rt) (context : Context)

theorem do_has_errs : ErrsAs (do_has.run context) false := by
  cases context with
  | nil => rfl
  | cons e context => cases e <;> rfl

theorem do_relop_errs (op : RelOp) :
    ErrsAs ((do_relop op).run context) (relopErrs (context.map (kindOf rt))) := by
  rcases context with _ | ⟨e1, _ | ⟨e2, context⟩⟩
  · rfl
  · cases e1 <;> rfl
  · cases e1 <;> cases e2 <;> rfl

theorem do_in_errs : ErrsAs (do_in.run context) (inErrs (context.map (kindOf rt))) := by
  rcases context with _ | ⟨e1, _ | ⟨e2, context⟩⟩
  · rfl
  · cases e1 <;> rfl
  · cases e1 with
    | list list => cases e2 <;> rfl
    | _ => rfl

theorem do_regex_errs (ignore_case : Bool) :
    ErrsAs ((do_regex ignore_case).run context) false := by
  rcases context with _ | ⟨e1, _ | ⟨e2, context⟩⟩
  · rfl
  · cases e1 <;> rfl
  · cases e1 with
    | literal s => cases e2 <;> rfl
    | _ => rfl

theorem do_unary_errs (f : Query → Expression) (msg : String) :
    ErrsAs ((do_unary f msg).run context) (unaryErrs (context.map (kindOf rt))) := by
  cases context with
  | nil => rfl
  | cons e context => cases e <;> rfl

theorem do_binary_errs (f : Query → Query → Query) (msg : String) :
    ErrsAs ((do_binary f msg).run context) (binaryErrs (context.map (kindOf rt))) := by
  rcases context with _ | ⟨e1, _ | ⟨e2, context⟩⟩
  · rfl
  · cases e1 <;> rfl
  · cases e1 <;> cases e2 <;> rfl

theorem do_keys_errs (f : StringRefs → ValueExpression → MultipleResults) (msg : String) :
    ErrsAs ((do_keys rt f msg).run context) (keysErrs (context.map (kindOf rt))) := by
  rcases context with _ | ⟨e1, _ | ⟨e2, context⟩⟩
  · rfl
  · cases e1 <;> rfl
  · rw [run_do_keys]
    cases e2 with
    | literal s =>
      cases hs : rt.stod s with
      | none =>
        obtain ⟨hvalue, hkind⟩ := value_expr_from_no_number rt hs
        rw [hvalue, List.map_cons, List.map_cons, hkind]
        cases e1 <;> rfl
      | some n =>
        obtain ⟨hvalue, hkind⟩ := value_expr_from_number rt hs
        rw [hvalue, List.map_cons, List.map_cons, hkind]
        cases e1 <;> rfl
    | _ => cases e1 <;> rfl

theorem Word.Execute_errs (w : Word) :
    ErrsAs ((w.Execute rt).run context) (w.errs (context.map (kindOf rt))) := by
  cases w with
  | HasKeyWord => exact do_has_errs context
  | EqualWord => exact do_relop_errs rt context .EQ
  | GtWord => exact do_relop_errs rt context .GT
  | GeWord => exact do_relop_errs rt context .GE
  | LtWord => exact do_relop_errs rt context .LT
  | LeWord => exact do_relop_errs rt context .LE
  | InWord => exact do_in_errs rt context
  | RegexWord ignore_case => exact do_regex_errs context ignore_case
  | FalseWord | TrueWord => rfl
  | AndWord | OrWord => exact do_binary_errs rt context _ _
  | NotWord | CountWord | SumWord | MinWord | MaxWord | AvgWord | AllWord =>
    exact do_unary_errs rt context _ _
  | GroupByWord | DropKeepTagsWord keep => exact do_keys_errs rt context _ _

theorem ClientVocabulary.Execute_errs (token : StrRef) :
    ErrsAs ((ClientVocabulary.Execute rt (Literal.GetWord token)).run context)
      (wordErrs token (context.map (kindOf rt))) := by
  unfold ClientVocabulary.Execute wordErrs
  cases ClientVocabulary.words.lookup (Literal.GetWord token) with
  | none => rfl
  | some w => exact Word.Execute_errs rt context w

end Errors

/-! Malformed programs. -/

/-- The query that `GetQuery` finds on the stack, unless it logs an error. -/
def contextQuery : Context → Option Query
  | [.query q] => some q
  | [.value e] => some e.GetQuery
  | [.results e] => some e.GetQuery
  | _ => none

/-- A closing parenthesis too many. -/
def Overclosed (tokens : List StrRef) : Prop :=
  ∃ pre post, tokens = pre ++ post ∧ pre.count lparen < pre.count rparen

/-- An opening parenthesis that is never closed. -/
def Unclosed (tokens : List StrRef) : Prop :=
  ∃ pre post, tokens = pre ++ post ∧ post.count rparen < post.count lparen

def Unknown (word : StrRef) : Prop :=
  ClientVocabulary.words.lookup (Literal.GetWord word) = none

section Malformed
variable (rt : Runtime) (tokens : List StrRef)

/-- The loop executes the word, on this stack. -/
def Executes (word : StrRef) (context : Context) : Prop :=
  ∃ pre post, tokens = pre ++ word :: post ∧
    loopAfter rt (0, []) pre = some (0, context) ∧ Literal.IsWord word = true

def Malformed : Prop :=
  Overclosed tokens ∨ Unclosed tokens ∨ ∃ word context, Executes rt tokens word context ∧
    (Unknown word ∨
      ReturnsError ((ClientVocabulary.Execute rt (Literal.GetWord word)).run context))

/-- Malformed programs are reported, and those with an unknown word or an open list leave
nothing that `GetQuery` takes for a query. -/
structure ReportsMalformed : Prop where
  returned : Malformed rt tokens → ReturnsError ((do_program rt tokens 0).run [])
  no_query : (Unclosed tokens ∨ ∃ word context, Executes rt tokens word context ∧ Unknown word) →
    ∀ r context, (do_program rt tokens 0).run [] = .ok r context → contextQuery context = none

/-- A run on kinds reaches a word, on this shape. -/
def ReachesWord (word : StrRef) (shape : Shape) : Prop :=
  ∃ pre post, tokens = pre ++ word :: post ∧
    shapeAfter rt (0, []) pre = some (0, shape) ∧ Literal.IsWord word = true

/-- A run on kinds reaches a closing parenthesis too many, on this shape. -/
def ReachesExcess (shape : Shape) : Prop :=
  ∃ pre post, tokens = pre ++ rparen :: post ∧ shapeAfter rt (0, []) pre = some (0, shape)

/-- The kinds that `GetQuery` takes for a query. -/
def queryShapes : List Shape := [[.query], [.value], [.results]]

/-- The parentheses are balanced and no executed word returns an error; or a closing
parenthesis too many is reached, and then an unknown word before it, or an
opening one behind it, goes with a stack that is no query. -/
def WellReported : Prop :=
  (¬ Overclosed tokens ∧ ¬ Unclosed tokens ∧
    ∀ word shape, ReachesWord rt tokens word shape → wordErrs word shape = false) ∨
  ∃ shape, ReachesExcess rt tokens shape ∧
    ((Unclosed tokens ∨ ∃ word shape', ReachesWord rt tokens word shape' ∧ Unknown word) →
      shape ∉ queryShapes)

variable {rt tokens}

theorem contextQuery_eq_none_iff (context : Context) :
    contextQuery context = none ↔ context.map (kindOf rt) ∉ queryShapes := by
  rcases context with _ | ⟨e, _ | ⟨e', context⟩⟩
  · simp [contextQuery, queryShapes]
  · cases e <;> simp [contextQuery, queryShapes, kindOf]
  · cases e <;> simp [contextQuery, queryShapes]

theorem reachesWord_iff {word : StrRef} {shape : Shape} :
    ReachesWord rt tokens word shape ↔
      ∃ context, Executes rt tokens word context ∧ context.map (kindOf rt) = shape := by
  simp only [ReachesWord, Executes, shapeAfter_eq_some_iff]
  constructor
  · intro h
    rcases h with ⟨pre, post, htokens, ⟨context, hloop, hshape⟩, hword⟩
    exact ⟨context, ⟨pre, post, htokens, hloop, hword⟩, hshape⟩
  · intro h
    rcases h with ⟨context, ⟨pre, post, htokens, hloop, hword⟩, hshape⟩
    exact ⟨pre, post, htokens, ⟨context, hloop, hshape⟩, hword⟩

theorem wordErrs_of_unknown {word : StrRef} (h : Unknown word) (shape : Shape) :
    wordErrs word shape = true := by
  rw [wordErrs, h]

/-- Some executed word is unknown or returns an error, seen on kinds. -/
theorem exists_error_iff :
    (∃ word context, Executes rt tokens word context ∧
      (Unknown word ∨
        ReturnsError ((ClientVocabulary.Execute rt (Literal.GetWord word)).run context))) ↔
      ∃ word shape, ReachesWord rt tokens word shape ∧ wordErrs word shape = true := by
  constructor
  · intro h
    rcases h with ⟨word, context, hexec, herr⟩
    refine ⟨word, _, reachesWord_iff.mpr ⟨context, hexec, rfl⟩, ?_⟩
    rcases herr with hunknown | herr
    · exact wordErrs_of_unknown hunknown _
    · exact (ClientVocabulary.Execute_errs rt context word).returnsError_iff.mp herr
  · intro h
    rcases h with ⟨word, shape, hreach, herr⟩
    obtain ⟨context, hexec, rfl⟩ := reachesWord_iff.mp hreach
    exact ⟨word, context, hexec, Or.inr
      ((ClientVocabulary.Execute_errs rt context word).returnsError_iff.mpr herr)⟩

theorem exists_unknown_iff :
    (∃ word context, Executes rt tokens word context ∧ Unknown word) ↔
      ∃ word shape, ReachesWord rt tokens word shape ∧ Unknown word := by
  constructor
  · intro h
    rcases h with ⟨word, context, hexec, hunknown⟩
    exact ⟨word, _, reachesWord_iff.mpr ⟨context, hexec, rfl⟩, hunknown⟩
  · intro h
    rcases h with ⟨word, shape, hreach, hunknown⟩
    obtain ⟨context, hexec, rfl⟩ := reachesWord_iff.mp hreach
    exact ⟨word, context, hexec, hunknown⟩

/-- The only error that is returned is that of a closing parenthesis too many. -/
theorem run_of_reachesExcess {shape : Shape} (h : ReachesExcess rt tokens shape) :
    ∃ context, (do_program rt tokens 0).run [] = .ok UNBALANCED context ∧
      context.map (kindOf rt) = shape := by
  obtain ⟨pre, post, rfl, hshape⟩ := h
  obtain ⟨context, hloop, hkinds⟩ := shapeAfter_eq_some_iff.mp hshape
  refine ⟨context, ?_, hkinds⟩
  rw [do_program_zero, run_tokens_append hloop, run_tokens_cons, if_pos ⟨rfl, rfl⟩]

theorem exists_reachesExcess (h : ReturnsError ((do_program rt tokens 0).run [])) :
    ∃ shape, ReachesExcess rt tokens shape := by
  obtain ⟨msg, context, hrun⟩ := h
  rw [do_program_zero] at hrun
  rcases @run_tokens_cases rt tokens 0 [] with
    ⟨_, _, _, hr⟩ | ⟨pre, post, context', htokens, hloop, _⟩ | ⟨_, _, hr⟩
  · rw [hr] at hrun
    cases hrun
  · exact ⟨_, pre, post, htokens, shapeAfter_eq_some_iff.mpr ⟨context', hloop, rfl⟩⟩
  · rw [hr] at hrun
    cases hrun

end Malformed

/-- Malformed programs are reported exactly when the loop reaches a closing parenthesis too
many before a word throws; `GetQuery` is then saved by what is left on the stack only. -/
theorem do_program_reports_iff (rt : Runtime) (tokens : List StrRef) :
    ReportsMalformed rt tokens ↔ WellReported rt tokens := by
  constructor
  · intro h
    by_cases hbad : Malformed rt tokens
    · obtain ⟨shape, hexcess⟩ := exists_reachesExcess (h.returned hbad)
      obtain ⟨context, hrun, rfl⟩ := run_of_reachesExcess hexcess
      refine Or.inr ⟨_, hexcess, ?_⟩
      rw [← exists_unknown_iff, ← contextQuery_eq_none_iff]
      intro hpart
      exact h.no_query hpart _ _ hrun
    · apply Or.inl
      rw [Malformed, exists_error_iff, not_or, not_or] at hbad
      refine ⟨hbad.1, hbad.2.1, ?_⟩
      intro word shape hreach
      by_contra herr
      exact hbad.2.2 ⟨word, shape, hreach, Bool.eq_true_of_not_eq_false herr⟩
  · intro hcases
    rcases hcases with ⟨hover, hunclosed, hwords⟩ | ⟨shape, hexcess, hpart⟩
    · refine ⟨?_, ?_⟩
      · rw [Malformed, exists_error_iff]
        intro hcases
        rcases hcases with hbad | hbad | ⟨word, shape, hreach, herr⟩
        · exact False.elim (hover hbad)
        · exact False.elim (hunclosed hbad)
        · rw [hwords word shape hreach] at herr
          cases herr
      · rw [exists_unknown_iff]
        intro hcases
        rcases hcases with hbad | ⟨word, shape, hreach, hunknown⟩
        · exact False.elim (hunclosed hbad)
        · have herr := hwords word shape hreach
          rw [wordErrs_of_unknown hunknown] at herr
          cases herr
    · obtain ⟨context, hrun, rfl⟩ := run_of_reachesExcess hexcess
      refine ⟨fun _ => ⟨_, context, hrun⟩, ?_⟩
      rw [exists_unknown_iff]
      intro hbad r context' hrun'
      rw [hrun] at hrun'
      cases hrun'
      exact (contextQuery_eq_none_iff context).mpr (hpart hbad)

/-- An unknown word behind `:true` leaves the query of the program without it. -/
theorem unknown_word_is_not_reported :
    ¬ ReportsMalformed plainRuntime [intern_str ":true", intern_str ":bogus"] := by
  intro h
  have hexec : Executes plainRuntime [intern_str ":true", intern_str ":bogus"]
      (intern_str ":bogus") [.query .true_] := ⟨[intern_str ":true"], [], rfl, rfl, rfl⟩
  have hnone := h.no_query (Or.inr ⟨_, _, hexec, rfl⟩) none [.query .true_] rfl
  cases hnone

end AtlasNative
