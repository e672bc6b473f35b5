import AtlasNative.ProgramText

/-!
# Postfix programs of boolean expressions

Running the postfix tokens of a boolean expression leaves one query on the stack,
which means on every tag map what the expression means.
-/

namespace AtlasNative

open Context
set_option autoImplicit false

structure ItemToken where
  ref : StrRef
  token : isToken ref = true
  ne_lparen : ref ≠ lparen
  ne_rparen : ref ≠ rparen

/-- A token that is pushed as it is: no parenthesis and no word. -/
structure PlainToken extends ItemToken where
  not_word : Literal.IsWord ref = false

/-- What stands between the parentheses of an `:in`, which are balanced. -/
inductive Items where
  | nil
  | token (t : ItemToken) (items : Items)
  | nested (inner items : Items)

inductive BoolTree where
  | has (k : PlainToken)
  | rel (op : RelOp) (k v : PlainToken)
  | re (ignore_case : Bool) (k v : PlainToken)
  | in_ (k : PlainToken) (items : Items)
  | true_
  | false_
  | not_ (t : BoolTree)
  | and_ (t1 t2 : BoolTree)
  | or_ (t1 t2 : BoolTree)

def Items.tokens : Items → List StrRef
  | nil => []
  | token t items => t.ref :: items.tokens
  | nested inner items => lparen :: (inner.tokens ++ rparen :: items.tokens)

namespace Word

def name : Word → String
  | HasKeyWord => "has"
  | EqualWord => "eq"
  | GtWord => "gt"
  | GeWord => "ge"
  | LtWord => "lt"
  | LeWord => "le"
  | InWord => "in"
  | RegexWord ignore_case => if ignore_case then "reic" else "re"
  | NotWord => "not"
  | AndWord => "and"
  | OrWord => "or"
  | FalseWord => "false"
  | TrueWord => "true"
  | CountWord => "count"
  | SumWord => "sum"
  | MinWord => "min"
  | MaxWord => "max"
  | AvgWord => "avg"
  | GroupByWord => "by"
  | DropKeepTagsWord keep => if keep then "keep-tags" else "drop-tags"
  | AllWord => "all"

def token (w : Word) : StrRef := intern_str (":" ++ w.name)

def ofRelOp : RelOp → Word
  | .EQ => EqualWord
  | .GT => GtWord
  | .GE => GeWord
  | .LT => LtWord
  | .LE => LeWord

theorem isToken_token (w : Word) : isToken w.token = true := by
  cases w with
  | RegexWord ignore_case => cases ignore_case <;> decide
  | DropKeepTagsWord keep => cases keep <;> decide
  | _ => decide

theorem read_token (w : Word) :
    w.token ≠ lparen ∧ w.token ≠ rparen ∧ Literal.IsWord w.token = true ∧
      ClientVocabulary.words.lookup (Literal.GetWord w.token) = some w := by
  cases w with
  | RegexWord ignore_case => cases ignore_case <;> decide
  | DropKeepTagsWord keep => cases keep <;> decide
  | _ => decide

end Word

namespace BoolTree

def tokens : BoolTree → List StrRef
  | has k => [k.ref, Word.HasKeyWord.token]
  | rel op k v => [k.ref, v.ref, (Word.ofRelOp op).token]
  | re ignore_case k v => [k.ref, v.ref, (Word.RegexWord ignore_case).token]
  | in_ k items => k.ref :: lparen :: (items.tokens ++ [rparen, Word.InWord.token])
  | true_ => [Word.TrueWord.token]
  | false_ => [Word.FalseWord.token]
  | not_ t => t.tokens ++ [Word.NotWord.token]
  | and_ t1 t2 => t1.tokens ++ t2.tokens ++ [Word.AndWord.token]
  | or_ t1 t2 => t1.tokens ++ t2.tokens ++ [Word.OrWord.token]

/-- The ordinary meaning of an expression on a tag map. -/
def Holds (regex : RegexOracle) (tags : Tags) : BoolTree → Prop
  | has k => ∃ cur, tags.at_ k.ref = some cur
  | rel .EQ k v => tags.at_ k.ref = some v.ref
  | rel .GT k v => ∃ cur, tags.at_ k.ref = some cur ∧ v.ref < cur
  | rel .GE k v => ∃ cur, tags.at_ k.ref = some cur ∧ v.ref ≤ cur
  | rel .LT k v => ∃ cur, tags.at_ k.ref = some cur ∧ cur < v.ref
  | rel .LE k v => ∃ cur, tags.at_ k.ref = some cur ∧ cur ≤ v.ref
  | re ignore_case k v =>
    ∃ cur, tags.at_ k.ref = some cur ∧ regex v.ref.str ignore_case cur = true
  | in_ k items => ∃ cur, tags.at_ k.ref = some cur ∧ cur ∈ items.tokens
  | true_ => True
  | false_ => False
  | not_ t => ¬ t.Holds regex tags
  | and_ t1 t2 => t1.Holds regex tags ∧ t2.Holds regex tags
  | or_ t1 t2 => t1.Holds regex tags ∨ t2.Holds regex tags

def compile : BoolTree → Query
  | has k => .hasKey k.ref
  | rel op k v => .relop ⟨k.ref, v.ref, op⟩
  | re ignore_case k v => .regex k.ref v.ref.str ignore_case
  | in_ k items => .in_ k.ref items.tokens
  | true_ => .true_
  | false_ => .false_
  | not_ t => query.not_q t.compile
  | and_ t1 t2 => query.and_q t1.compile t2.compile
  | or_ t1 t2 => query.or_q t1.compile t2.compile

theorem Matches_compile (regex : RegexOracle) (tags : Tags) (t : BoolTree) :
    t.compile.Matches regex tags = true ↔ t.Holds regex tags := by
  induction t with
  | has k => simp [compile, Holds, Query.Matches, Query.MatchesWith, Option.isSome_iff_exists]
  | rel op k v =>
    cases op <;> cases hk : tags.at_ k.ref <;>
      simp [compile, Holds, Query.Matches, Query.MatchesWith, do_query, hk]
  | re ignore_case k v =>
    cases hk : tags.at_ k.ref <;>
      simp [compile, Holds, Query.Matches, Query.MatchesWith, hk]
  | in_ k items =>
    cases hk : tags.at_ k.ref <;>
      simp [compile, Holds, Query.Matches, Query.MatchesWith, hk]
  | true_ => simp [compile, Holds, Query.Matches, Query.MatchesWith]
  | false_ => simp [compile, Holds, Query.Matches, Query.MatchesWith]
  | not_ t ih => simp [compile, Holds, ← ih, Query.Matches]
  | and_ t1 t2 ih1 ih2 => simp [compile, Holds, ← ih1, ← ih2, Query.Matches]
  | or_ t1 t2 ih1 ih2 => simp [compile, Holds, ← ih1, ← ih2, Query.Matches]

end BoolTree

section Run
variable (rt : Runtime) (tokens : List StrRef) (context : Context)

theorem run_literal (t : PlainToken) :
    (run_tokens rt 0 (t.ref :: tokens)).run context =
      (run_tokens rt 0 tokens).run (.literal t.ref :: context) := by
  simp [run_tokens, t.ne_lparen, t.ne_rparen, t.not_word, Push]

theorem run_word (w : Word) :
    (run_tokens rt 0 (w.token :: tokens)).run context =
      match (w.Execute rt).run context with
      | .ok _ context' => (run_tokens rt 0 tokens).run context'
      | .error e context' => .error e context' := by
  obtain ⟨hl, hr, hword, hlookup⟩ := w.read_token
  simp only [run_tokens, hl, hr, hword, ClientVocabulary.Execute, hlookup, if_false, if_true,
    lt_irrefl, EStateM.run_bind, run_discard]
  cases (w.Execute rt).run context <;> rfl

/-- Inside of parentheses every token goes to the list on top of the stack. -/
theorem run_items (items : Items) (n : ℕ) (list : List StrRef) :
    (run_tokens rt (n + 1) (items.tokens ++ tokens)).run (.list list :: context) =
      (run_tokens rt (n + 1) tokens).run (.list (list ++ items.tokens) :: context) := by
  induction items generalizing tokens n list with
  | nil => simp [Items.tokens]
  | token t items ih =>
    have hpush : (run_tokens rt (n + 1) (t.ref :: (items.tokens ++ tokens))).run
          (.list list :: context) =
        (run_tokens rt (n + 1) (items.tokens ++ tokens)).run
          (.list (list ++ [t.ref]) :: context) := by
      simp only [run_tokens, t.ne_lparen, t.ne_rparen, if_false, Nat.succ_pos, if_true]
      rfl
    rw [Items.tokens, List.cons_append, hpush, ih, List.append_assoc, List.singleton_append]
  | nested inner items ih1 ih2 =>
    have hopen : (run_tokens rt (n + 1) (lparen :: (inner.tokens ++ rparen ::
          (items.tokens ++ tokens)))).run (.list list :: context) =
        (run_tokens rt (n + 2) (inner.tokens ++ rparen :: (items.tokens ++ tokens))).run
          (.list (list ++ [lparen]) :: context) := by
      simp only [run_tokens, if_true, Nat.succ_ne_zero, if_false]
      rfl
    have hclose : ∀ list' : List StrRef,
        (run_tokens rt (n + 2) (rparen :: (items.tokens ++ tokens))).run
          (.list list' :: context) =
        (run_tokens rt (n + 1) (items.tokens ++ tokens)).run
          (.list (list' ++ [rparen]) :: context) := by
      intro list'
      have hne : rparen ≠ lparen := by decide
      simp only [run_tokens, if_neg hne, if_true]
      rfl
    simp only [Items.tokens, List.cons_append, List.append_assoc]
    rw [hopen, ih1, hclose, ih2]
    simp only [List.append_assoc, List.cons_append, List.nil_append]

/-- The tokens of an expression leave its query on the stack. -/
theorem run_tree (t : BoolTree) :
    (run_tokens rt 0 (t.tokens ++ tokens)).run context =
      (run_tokens rt 0 tokens).run (.query t.compile :: context) := by
  induction t generalizing tokens context with
  | has k =>
    simp only [BoolTree.tokens, List.cons_append, List.nil_append]
    rw [run_literal, run_word]
    rfl
  | rel op k v =>
    simp only [BoolTree.tokens, List.cons_append, List.nil_append]
    rw [run_literal, run_literal, run_word]
    cases op <;> rfl
  | re ignore_case k v =>
    simp only [BoolTree.tokens, List.cons_append, List.nil_append]
    rw [run_literal, run_literal, run_word]
    rfl
  | in_ k items =>
    simp only [BoolTree.tokens, List.cons_append, List.append_assoc, List.nil_append]
    have hopen : ∀ (tokens : List StrRef) (context : Context),
        (run_tokens rt 0 (lparen :: tokens)).run context =
          (run_tokens rt 1 tokens).run (.list [] :: context) := by
      intro tokens context
      simp only [run_tokens, if_true]
      rfl
    have hclose : ∀ (tokens : List StrRef) (context : Context),
        (run_tokens rt 1 (rparen :: tokens)).run context =
          (run_tokens rt 0 tokens).run context := by
      intro tokens context
      have hne : rparen ≠ lparen := by decide
      simp only [run_tokens, if_neg hne, if_true]
    rw [run_literal, hopen, run_items, hclose, run_word]
    rfl
  | true_ => exact run_word rt tokens context .TrueWord
  | false_ => exact run_word rt tokens context .FalseWord
  | not_ t ih =>
    simp only [BoolTree.tokens, List.append_assoc, List.cons_append, List.nil_append]
    rw [ih, run_word]
    rfl
  | and_ t1 t2 ih1 ih2 =>
    simp only [BoolTree.tokens, List.append_assoc, List.cons_append, List.nil_append]
    rw [ih1, ih2, run_word]
    rfl
  | or_ t1 t2 ih1 ih2 =>
    simp only [BoolTree.tokens, List.append_assoc, List.cons_append, List.nil_append]
    rw [ih1, ih2, run_word]
    rfl

end Run

theorem Items.isToken_of_mem (items : Items) : ∀ t ∈ items.tokens, isToken t = true := by
  have hlparen : isToken lparen = true := by decide
  have hrparen : isToken rparen = true := by decide
  induction items with
  | nil => simp [tokens]
  | token t items ih => simpa [tokens, t.token] using ih
  | nested inner items ih1 ih2 =>
    intro t ht
    simp only [tokens, List.mem_cons, List.mem_append] at ht
    rcases ht with rfl | ht | rfl | ht
    · exact hlparen
    · exact ih1 t ht
    · exact hrparen
    · exact ih2 t ht

theorem BoolTree.isToken_of_mem (tree : BoolTree) : ∀ t ∈ tree.tokens, isToken t = true := by
  have hlparen : isToken lparen = true := by decide
  have hrparen : isToken rparen = true := by decide
  induction tree with
  | has k => simp [tokens, k.token, Word.isToken_token]
  | rel op k v => simp [tokens, k.token, v.token, Word.isToken_token]
  | re ignore_case k v => simp [tokens, k.token, v.token, Word.isToken_token]
  | in_ k items =>
    intro t ht
    simp only [tokens, List.mem_cons, List.mem_append, List.not_mem_nil, or_false] at ht
    rcases ht with rfl | rfl | ht | rfl | rfl
    · exact k.token
    · exact hlparen
    · exact items.isToken_of_mem t ht
    · exact hrparen
    · exact Word.isToken_token _
  | true_ => simp [tokens, Word.isToken_token]
  | false_ => simp [tokens, Word.isToken_token]
  | not_ t ih => simpa [tokens, or_imp, forall_and, Word.isToken_token] using ih
  | and_ t1 t2 ih1 ih2 =>
    simpa [tokens, or_imp, forall_and, Word.isToken_token] using ⟨ih1, ih2⟩
  | or_ t1 t2 ih1 ih2 =>
    simpa [tokens, or_imp, forall_and, Word.isToken_token] using ⟨ih1, ih2⟩

/-- The query of a program matches a tag map when the expression that the program writes
holds on it. -/
def Compiles (rt : Runtime) (tree : BoolTree) (program : String) : Prop :=
  ∃ q, Interpreter.GetQuery rt program = .ok q ∧
    ∀ tags, q.Matches rt.regex tags = true ↔ tree.Holds rt.regex tags

/-- A program that is shorter than `2 ^ 31` bytes compiles, however the tokens are spaced. -/
theorem compiles_render (rt : Runtime) (tree : BoolTree) (spacing : ℕ → Spacing)
    (tail : List Blanks) (hlength : (render spacing tail tree.tokens).toList.length < 2 ^ 31) :
    Compiles rt tree (render spacing tail tree.tokens) := by
  have hrun := run_tree rt [] [] tree
  rw [List.append_nil] at hrun
  refine ⟨tree.compile, ?_, fun tags => tree.Matches_compile rt.regex tags⟩
  have hsplit := split_render spacing tail tree.tokens tree.isToken_of_mem hlength
  rw [Interpreter.GetQuery, Interpreter.execStack_eq_ok hsplit hrun]
  rfl

end AtlasNative
