import Capuchin.Proofs.Syntax.Nodes
import Capuchin.Proofs.Syntax.Spelling

-- Whatever the parser objects to, the tree holds all names and literals of the source.
namespace Capuchin

-- A name or a literal, at its place in a tree.
inductive Leaf where
  | name (text : String)
  | integer (value : Int32)
  | float (value : Float32)
  | string (literal : String)
  | boolean (value : Bool)

namespace Leaf

-- A name that is missing is no leaf.
def ofName (name : Option String) : List Leaf := name.toList.map .name

end Leaf

-- The leaves that a node holds itself. Those of the nodes inside it are listed with them.
def Node.leaves : Node → List Leaf
  | .expr (.identifier name) => [.name name]
  | .expr (.integer value) => [.integer value]
  | .expr (.float value) => [.float value]
  | .expr (.string literal) => [.string literal]
  | .expr (.boolean value) => [.boolean value]
  | .expr (.assignment name _) => [.name name]
  | .expr (.function parameters _) => parameters.flatMap Leaf.ofName
  | .stmt (.bind name _) => Leaf.ofName name
  | .stmt (.define name parameters _) => .name name :: parameters.flatMap Leaf.ofName
  | _ => []

-- The leaves of a program in pre-order.
def Program.leaves (program : Program) : List Leaf := program.nodes.flatMap Node.leaves

def Expr.leaves (expr : Expr) : List Leaf := expr.nodes.flatMap Node.leaves

def Stmt.leaves (stmt : Stmt) : List Leaf := stmt.nodes.flatMap Node.leaves

section Trees

theorem exprNodes_leaves (exprs : List Expr) :
    (exprNodes exprs).flatMap Node.leaves = exprs.flatMap Expr.leaves := by
  induction exprs with
  | nil => rfl
  | cons expr rest ih => simp [exprNodes, Expr.leaves, ih]

theorem stmtNodes_leaves (stmts : List Stmt) :
    (stmtNodes stmts).flatMap Node.leaves = stmts.flatMap Stmt.leaves := by
  induction stmts with
  | nil => rfl
  | cons stmt rest ih => simp [stmtNodes, Stmt.leaves, ih]

variable {name : String} {names : List (Option String)} {expr left right : Expr}
  {exprs : List Expr} {body other : List Stmt}

namespace Expr

@[simp] theorem leaves_missing : missing.leaves = [] := rfl

@[simp] theorem leaves_identifier : (identifier name).leaves = [.name name] := rfl

@[simp] theorem leaves_integer {value : Int32} : (integer value).leaves = [.integer value] := rfl

@[simp] theorem leaves_float {value : Float32} : (float value).leaves = [.float value] := rfl

@[simp] theorem leaves_string : (string name).leaves = [.string name] := rfl

@[simp] theorem leaves_boolean {value : Bool} : (boolean value).leaves = [.boolean value] := rfl

@[simp] theorem leaves_array : (array exprs).leaves = exprs.flatMap leaves :=
  exprNodes_leaves exprs

@[simp] theorem leaves_binary {op : BinaryOp} :
    (binary op left right).leaves = left.leaves ++ right.leaves :=
  List.flatMap_append

@[simp] theorem leaves_unary {op : UnaryOp} : (unary op expr).leaves = expr.leaves := rfl

@[simp] theorem leaves_call : (call expr exprs).leaves = expr.leaves ++ exprs.flatMap leaves := by
  rw [← exprNodes_leaves]
  exact List.flatMap_append

@[simp] theorem leaves_assignment : (assignment name expr).leaves = .name name :: expr.leaves := rfl

@[simp] theorem leaves_index : (index left right).leaves = left.leaves ++ right.leaves :=
  List.flatMap_append

@[simp] theorem leaves_function :
    (function names body).leaves = names.flatMap Leaf.ofName ++ body.flatMap Stmt.leaves := by
  rw [← stmtNodes_leaves]
  rfl

end Expr

namespace Stmt

@[simp] theorem leaves_bind {name : Option String} :
    (bind name expr).leaves = Leaf.ofName name ++ expr.leaves := rfl

@[simp] theorem leaves_giveBack : (giveBack expr).leaves = expr.leaves := rfl

@[simp] theorem leaves_ifThen :
    (ifThen expr body).leaves = expr.leaves ++ body.flatMap leaves := by
  rw [← stmtNodes_leaves]
  exact List.flatMap_append

@[simp] theorem leaves_ifElse :
    (ifElse expr body other).leaves =
      expr.leaves ++ body.flatMap leaves ++ other.flatMap leaves := by
  rw [← stmtNodes_leaves, ← stmtNodes_leaves, Expr.leaves, ← List.flatMap_append,
    ← List.flatMap_append]
  rfl

@[simp] theorem leaves_whileLoop :
    (whileLoop expr body).leaves = expr.leaves ++ body.flatMap leaves := by
  rw [← stmtNodes_leaves]
  exact List.flatMap_append

@[simp] theorem leaves_block : (block body).leaves = body.flatMap leaves := stmtNodes_leaves body

@[simp] theorem leaves_define :
    (define name names body).leaves =
      .name name :: (names.flatMap Leaf.ofName ++ body.flatMap leaves) := by
  rw [← stmtNodes_leaves]
  rfl

@[simp] theorem leaves_expression : (expression expr).leaves = expr.leaves := rfl

end Stmt

theorem Program.leaves_eq (program : Program) :
    program.leaves = List.flatMap Stmt.leaves program :=
  stmtNodes_leaves program

end Trees

-- The kinds of tokens that make leaves.
def TokenKind.makesLeaf : TokenKind → Bool
  | .identifier | .integer | .float | .string | .trueWord | .falseWord => true
  | _ => false

theorem BinaryOp.not_makesLeaf {kind : TokenKind} {op : BinaryOp} (h : ofToken? kind = some op) :
    kind.makesLeaf = false := by
  cases kind with
  | identifier | integer | float | string | trueWord | falseWord => contradiction
  | _ => rfl

namespace Token

-- The leaf a token stands for, if its literal has a value.
def leaf? (token : Token) : Option Leaf :=
  match token.kind with
  | .identifier => some (.name token.literal)
  | .integer => (Integer.read? token.literal).map .integer
  | .float => (FloatText.read? token.literal).map .float
  | .string => some (.string token.literal)
  | .trueWord => some (.boolean true)
  | .falseWord => some (.boolean false)
  | _ => none

-- A literal without a value.
def isUnread (token : Token) : Bool := token.kind.makesLeaf && token.leaf?.isNone

-- An integer that is too large.
def isOversized (token : Token) : Bool := token.kind = .integer && 2147483647 < token.decimal

theorem leaf?_of_not_makesLeaf {token : Token} (h : token.kind.makesLeaf = false) :
    token.leaf? = none := by
  unfold leaf?
  split <;> simp_all [TokenKind.makesLeaf]

theorem isUnread_of_not_makesLeaf {token : Token} (h : token.kind.makesLeaf = false) :
    token.isUnread = false := by
  simp [isUnread, h]

theorem isUnread_of_leaf? {token : Token} {leaf : Leaf} (h : token.leaf? = some leaf) :
    token.isUnread = false := by
  simp [isUnread, h]

end Token

-- The token of an objection to a literal.
def Diagnostic.literal? : Diagnostic → Option Token
  | .invalidLiteral found => some found
  | _ => none

namespace Cursor

-- The leaves still to read.
def leaves (cursor : Cursor) : List Leaf := cursor.ahead.filterMap Token.leaf?

-- The literals still to read that have no value.
def unread (cursor : Cursor) : List Token := cursor.ahead.filter Token.isUnread

-- The end makes no leaf, so the current token may be told apart from the rest at the end too.

theorem leaves_eq (cursor : Cursor) :
    cursor.leaves = cursor.current.leaf?.toList ++ cursor.advance.leaves := by
  obtain ⟨ahead, stop⟩ := cursor
  cases ahead with
  | nil => rfl
  | cons token rest =>
      cases hleaf : token.leaf? <;> simp [leaves, current, advance, hleaf]

theorem unread_eq (cursor : Cursor) :
    cursor.unread = [cursor.current].filter Token.isUnread ++ cursor.advance.unread := by
  obtain ⟨ahead, stop⟩ := cursor
  cases ahead with
  | nil => rfl
  | cons token rest =>
      cases hunread : token.isUnread <;> simp [unread, current, advance, hunread]

end Cursor

namespace Reader

-- With the leaves `before` already in hand, the leaves of the value and those still to read are
-- all leaves there were. Literals without a value are objected to in their order.
def KeepsAt (before : List Leaf) (leaves : α → List Leaf) (reader : Reader α) (cursor : Cursor) :
    Prop :=
  leaves (reader cursor).value ++ (reader cursor).rest.leaves = before ++ cursor.leaves ∧
    (reader cursor).diagnostics.filterMap Diagnostic.literal? ++ (reader cursor).rest.unread =
      cursor.unread

def Keeps (before : List Leaf) (leaves : α → List Leaf) (reader : Reader α) : Prop :=
  ∀ cursor, KeepsAt before leaves reader cursor

namespace KeepsAt

variable {cursor : Cursor} {before : List Leaf} {leaves : α → List Leaf} {more : β → List Leaf}
  {reader : Reader α}

theorem bind {next : α → Reader β} (h : KeepsAt before leaves reader cursor)
    (hn : ∀ value, Keeps (leaves value) more (next value)) :
    KeepsAt before more (reader >>= next) cursor := by
  obtain ⟨hleaves, hunread⟩ := h
  obtain ⟨hmore, hlater⟩ := hn (reader cursor).value (reader cursor).rest
  refine ⟨hmore.trans hleaves, ?_⟩
  rw [bind_apply, List.filterMap_append, List.append_assoc, hlater, hunread]

theorem map {f : α → β} (h : KeepsAt before (fun value => more (f value)) reader cursor) :
    KeepsAt before more (f <$> reader) cursor := by
  rw [KeepsAt] at h ⊢
  rw [map_apply]
  exact h

theorem current_bind {next : Token → Reader α} :
    KeepsAt before leaves (current >>= next) cursor ↔
      KeepsAt before leaves (next cursor.current) cursor := Iff.rfl

theorem following_bind {next : Token → Reader α} :
    KeepsAt before leaves (following >>= next) cursor ↔
      KeepsAt before leaves (next cursor.following) cursor := Iff.rfl

theorem report_bind {diagnostic : Diagnostic} {next : Unit → Reader α}
    (h : diagnostic.literal? = none) (hn : KeepsAt before leaves (next ()) cursor) :
    KeepsAt before leaves (report diagnostic >>= next) cursor := by
  obtain ⟨hleaves, hunread⟩ := hn
  refine ⟨hleaves, ?_⟩
  rw [bind_apply, report_apply, List.filterMap_append, ← hunread]
  simp [h]

theorem isAt_bind {kind : TokenKind} {next : Bool → Reader α} :
    KeepsAt before leaves (isAt kind >>= next) cursor ↔
      KeepsAt before leaves (next (cursor.current.kind = kind)) cursor := Iff.rfl

-- The leaf of a taken token is in hand.
theorem advance_bind {next : Token → Reader α} (hread : cursor.current.isUnread = false)
    (hn : KeepsAt (before ++ cursor.current.leaf?.toList) leaves (next cursor.current)
      cursor.advance) : KeepsAt before leaves (advance >>= next) cursor := by
  obtain ⟨hleaves, hunread⟩ := hn
  rw [List.append_assoc, ← cursor.leaves_eq] at hleaves
  refine ⟨hleaves, ?_⟩
  rw [cursor.unread_eq, ← hunread]
  simp [hread]

theorem skip_bind {next : Token → Reader α} (hk : cursor.current.kind.makesLeaf = false)
    (hn : Keeps before leaves (next cursor.current)) :
    KeepsAt before leaves (advance >>= next) cursor := by
  apply advance_bind (Token.isUnread_of_not_makesLeaf hk)
  rw [Token.leaf?_of_not_makesLeaf hk, Option.toList_none, List.append_nil]
  exact hn cursor.advance

theorem leaf_bind {next : Token → Reader α} {leaf : Leaf}
    (hleaf : cursor.current.leaf? = some leaf)
    (hn : Keeps (before ++ [leaf]) leaves (next cursor.current)) :
    KeepsAt before leaves (advance >>= next) cursor := by
  apply advance_bind (Token.isUnread_of_leaf? hleaf)
  rw [hleaf]
  exact hn cursor.advance

end KeepsAt

namespace Keeps

variable {before : List Leaf} {leaves : α → List Leaf} {more : β → List Leaf} {reader : Reader α}

theorem pure {value : α} (h : leaves value = before) : Keeps before leaves (pure value) :=
  fun cursor => ⟨congrArg (· ++ cursor.leaves) h, rfl⟩

theorem bind {next : α → Reader β} (h : Keeps before leaves reader)
    (hn : ∀ value, Keeps (leaves value) more (next value)) :
    Keeps before more (reader >>= next) :=
  fun cursor => (h cursor).bind hn

-- Leaves in hand make no difference.
theorem after (before : List Leaf) (h : Keeps [] leaves reader) :
    Keeps before (fun value => before ++ leaves value) reader := by
  intro cursor
  obtain ⟨hleaves, hunread⟩ := h cursor
  refine ⟨?_, hunread⟩
  rw [List.append_assoc, hleaves, List.nil_append]

theorem current_bind {next : Token → Reader α} (hn : ∀ token, Keeps before leaves (next token)) :
    Keeps before leaves (current >>= next) :=
  fun cursor => hn cursor.current cursor

theorem expect {kind : TokenKind} (hk : kind.makesLeaf = false) :
    Keeps before (fun _ => before) (expect kind) := by
  intro cursor
  rw [Reader.expect, KeepsAt.current_bind]
  by_cases h : cursor.current.kind = kind
  · rw [if_pos h]
    exact .skip_bind (h ▸ hk) (.pure rfl)
  · rw [if_neg h]
    exact ⟨rfl, by simp [Diagnostic.literal?]⟩

theorem ended {close : TokenKind} (hk : close.makesLeaf = false) (h : Keeps before leaves reader) :
    Keeps before leaves (Reader.before close reader) :=
  h.bind fun _ => (expect hk).bind fun _ => .pure rfl

section Lists

variable {item : Reader α} (hi : Keeps [] leaves item)

include hi in
theorem moreItems (bound : Nat) :
    Keeps [] (fun values => values.flatMap leaves) (moreItems item bound) := by
  induction bound with
  | zero => exact .pure rfl
  | succ bound ih =>
      intro cursor
      rw [Reader.moreItems, KeepsAt.isAt_bind]
      by_cases hk : cursor.current.kind = .comma
      · simp only [hk, decide_true, if_true]
        refine .skip_bind (by rw [hk]; rfl) (hi.bind fun value => ?_)
        exact (ih.after (leaves value)).bind fun values => .pure rfl
      · simp only [hk, decide_false, Bool.false_eq_true, if_false]
        exact pure rfl cursor

include hi in
theorem items (bound : Nat) {close : TokenKind} (hclose : close.makesLeaf = false) :
    Keeps [] (fun values => values.flatMap leaves) (items bound close item) := by
  intro cursor
  rw [Reader.items, KeepsAt.isAt_bind]
  by_cases hk : cursor.current.kind = close
  · simp only [hk, decide_true, if_true]
    exact .skip_bind (by rw [hk]; exact hclose) (.pure rfl)
  · simp only [hk, decide_false, Bool.false_eq_true, if_false]
    apply ended hclose
    refine hi.bind fun value => ?_
    exact ((hi.moreItems bound).after (leaves value)).bind fun values => .pure rfl

include hi in
theorem itemsUntil (stop : TokenKind) (bound : Nat) :
    Keeps [] (fun values => values.flatMap leaves) (itemsUntil stop item bound) := by
  induction bound with
  | zero => exact .pure rfl
  | succ bound ih =>
      refine .current_bind fun token => ?_
      dsimp only
      split
      · exact .pure rfl
      · refine hi.bind fun value => ?_
        exact (ih.after (leaves value)).bind fun values => .pure rfl

end Lists

end Keeps

end Reader

namespace Parser

open Reader

-- The leaves of a part that may be missing.
def optionLeaves (value : Option Expr) : List Leaf := value.toList.flatMap Expr.leaves

theorem identifier_keeps : Keeps [] Leaf.ofName identifier := by
  intro cursor
  rw [identifier, KeepsAt.current_bind]
  split
  case h_1 hk =>
      have hleaf : cursor.current.leaf? = some (.name cursor.current.literal) := by
        simp [Token.leaf?, hk]
      exact .leaf_bind hleaf (.pure rfl)
  case h_2 => exact .report_bind rfl (Keeps.pure rfl cursor)
  case h_3 => exact .report_bind rfl (Keeps.pure rfl cursor)

theorem parameters_keeps (bound : Nat) :
    Keeps [] (fun names => names.flatMap Leaf.ofName) (parameters bound) :=
  identifier_keeps.items bound rfl

-- A literal is in the tree, or it is objected to.
theorem literal_keeps {cursor : Cursor} {value : Option Expr}
    (hk : cursor.current.kind.makesLeaf)
    (hleaf : cursor.current.leaf?.toList = optionLeaves value)
    (hnone : value.isNone = cursor.current.leaf?.isNone) :
    KeepsAt [] optionLeaves (do
      let _ ← advance
      some <$> literal cursor.current value) cursor := by
  have hunread : cursor.current.isUnread = value.isNone := by
    rw [Token.isUnread, hk, Bool.true_and, hnone]
  rw [KeepsAt, cursor.leaves_eq, cursor.unread_eq, hleaf]
  cases value with
  | some expr => simp [literal, hunread, optionLeaves]
  | none => simp [literal, hunread, optionLeaves, Diagnostic.literal?]

section Parts

variable {whole : Reader Expr} {above : Precedence → Reader Expr} {statement : Reader Stmt}
  (hw : Keeps [] Expr.leaves whole) (ha : ∀ floor, Keeps [] Expr.leaves (above floor))
  (hs : Keeps [] Stmt.leaves statement) (bound : Nat) {cursor : Cursor}

include hw in
theorem parenthesised_keeps : Keeps [] Expr.leaves (parenthesised whole) :=
  (Keeps.expect rfl).bind fun _ => hw.ended rfl

include hs in
theorem blockRest_keeps :
    Keeps [] (fun body => body.flatMap Stmt.leaves) (blockRest bound statement) :=
  (hs.itemsUntil _ bound).ended rfl

include hs in
theorem block_keeps : Keeps [] (fun body => body.flatMap Stmt.leaves) (block bound statement) :=
  (Keeps.expect rfl).bind fun _ => blockRest_keeps hs bound

section Operators

variable (left : Expr) (hk : cursor.current.kind.makesLeaf = false)

include ha hk in
theorem binary_keeps (op : BinaryOp) :
    KeepsAt left.leaves Expr.leaves (binary above op left) cursor := by
  refine .skip_bind hk (((ha _).after left.leaves).bind fun right => .pure ?_)
  simp

include hw hk in
theorem call_keeps : KeepsAt left.leaves Expr.leaves (call whole bound left) cursor := by
  refine .skip_bind hk (((hw.items bound rfl).after left.leaves).bind fun arguments => .pure ?_)
  simp

include hw hk in
theorem index_keeps : KeepsAt left.leaves Expr.leaves (index whole left) cursor := by
  refine .skip_bind hk (((hw.ended rfl).after left.leaves).bind fun position => .pure ?_)
  simp

end Operators

include hw in
theorem nameOrAssignment_keeps (hk : cursor.current.kind = .identifier) :
    KeepsAt [] Expr.leaves (nameOrAssignment whole) cursor := by
  have hleaf : cursor.current.leaf? = some (.name cursor.current.literal) := by
    simp [Token.leaf?, hk]
  refine .leaf_bind hleaf fun rest => ?_
  rw [KeepsAt.isAt_bind]
  by_cases hassign : rest.current.kind = .assign
  · simp only [hassign, decide_true, if_true]
    refine .skip_bind (by rw [hassign]; rfl) ((hw.after _).bind fun value => .pure ?_)
    simp
  · simp only [hassign, decide_false, Bool.false_eq_true, if_false]
    exact Keeps.pure (by simp) rest

include hw in
theorem grouped_keeps (hk : cursor.current.kind.makesLeaf = false) :
    KeepsAt [] Expr.leaves (grouped whole) cursor :=
  .skip_bind hk (hw.ended rfl)

include hw in
theorem arrayLiteral_keeps (hk : cursor.current.kind.makesLeaf = false) :
    KeepsAt [] Expr.leaves (arrayLiteral whole bound) cursor := by
  refine .skip_bind hk ((hw.items bound rfl).bind fun elements => .pure ?_)
  simp

-- The names and the body of a function.
include hs in
theorem signature_keeps (before : List Leaf) {make : List (Option String) → List Stmt → β}
    {leaves : β → List Leaf}
    (hmake : ∀ names body, leaves (make names body) =
      before ++ names.flatMap Leaf.ofName ++ body.flatMap Stmt.leaves) :
    Keeps before leaves (do
      expect .openParen
      let names ← parameters bound
      return make names (← block bound statement)) := by
  refine (Keeps.expect rfl).bind fun _ => ((parameters_keeps bound).after before).bind fun names =>
    ?_
  exact ((block_keeps hs bound).after _).bind fun body => .pure (hmake names body)

include hs in
theorem functionLiteral_keeps (hk : cursor.current.kind.makesLeaf = false) :
    KeepsAt [] Expr.leaves (functionLiteral bound statement) cursor := by
  refine .skip_bind hk (signature_keeps hs bound [] fun names body => ?_)
  simp

include ha in
theorem unary_keeps (op : UnaryOp) (hk : cursor.current.kind.makesLeaf = false) :
    KeepsAt [] Expr.leaves (unary above op) cursor := by
  refine .skip_bind hk ((ha _).bind fun operand => .pure ?_)
  simp

include ha hs in
theorem operandWith_keeps : Keeps [] optionLeaves (operandWith above bound statement) := by
  intro cursor
  rw [operandWith, KeepsAt.current_bind]
  split
  case h_1 => exact .report_bind rfl (Keeps.pure rfl cursor)
  case h_2 => exact Keeps.pure rfl cursor
  case h_3 hk =>
      apply literal_keeps (by rw [hk]; rfl)
      all_goals
        cases hread : Integer.read? cursor.current.literal <;>
          simp [Token.leaf?, hk, hread, optionLeaves]
  case h_4 hk =>
      apply literal_keeps (by rw [hk]; rfl)
      all_goals
        cases hread : FloatText.read? cursor.current.literal <;>
          simp [Token.leaf?, hk, hread, optionLeaves]
  case h_5 hk =>
      have hleaf : cursor.current.leaf? = some (.boolean true) := by simp [Token.leaf?, hk]
      refine .leaf_bind hleaf (.pure ?_)
      simp [optionLeaves]
  case h_6 hk =>
      have hleaf : cursor.current.leaf? = some (.boolean false) := by simp [Token.leaf?, hk]
      refine .leaf_bind hleaf (.pure ?_)
      simp [optionLeaves]
  case h_7 hk =>
      have hleaf : cursor.current.leaf? = some (.string cursor.current.literal) := by
        simp [Token.leaf?, hk]
      refine .leaf_bind hleaf (.pure ?_)
      simp [optionLeaves]
  case h_8 hk => exact .map (by simpa [optionLeaves] using nameOrAssignment_keeps (ha _) hk)
  case h_9 hk =>
      exact .map (by simpa [optionLeaves] using grouped_keeps (ha _) (by rw [hk]; rfl))
  case h_10 hk =>
      exact .map (by simpa [optionLeaves] using arrayLiteral_keeps (ha _) bound (by rw [hk]; rfl))
  case h_11 hk =>
      exact .map (by simpa [optionLeaves] using functionLiteral_keeps hs bound (by rw [hk]; rfl))
  case h_12 hi hf ht hfalse hstring hname _ _ _ =>
      have hk : cursor.current.kind.makesLeaf = false := by
        unfold TokenKind.makesLeaf
        split <;> simp_all
      split
      · exact .map (by simpa [optionLeaves] using unary_keeps ha _ hk)
      · exact .report_bind rfl (.skip_bind hk (.pure rfl))

include ha in
theorem operatorsWith_keeps {operators : Expr → Reader Expr}
    (ho : ∀ left, Keeps left.leaves Expr.leaves (operators left)) (floor : Precedence)
    (left : Expr) :
    Keeps left.leaves Expr.leaves (operatorsWith above bound operators floor left) := by
  intro cursor
  rw [operatorsWith, KeepsAt.current_bind]
  dsimp only
  split
  · exact Keeps.pure rfl cursor
  · split
    case h_1 hop => exact (binary_keeps ha left (BinaryOp.not_makesLeaf hop) _).bind ho
    case h_2 hk _ => exact (call_keeps (ha _) bound left (by rw [hk]; rfl)).bind ho
    case h_3 hk _ => exact (index_keeps (ha _) left (by rw [hk]; rfl)).bind ho
    case h_4 => exact Keeps.pure rfl cursor

theorem expressionWith_keeps {operand : Reader (Option Expr)} {operators : Expr → Reader Expr}
    (hd : Keeps [] optionLeaves operand)
    (ho : ∀ left, Keeps left.leaves Expr.leaves (operators left)) :
    Keeps [] Expr.leaves (expressionWith operand operators) := by
  refine hd.bind fun left => ?_
  cases left with
  | none => exact .pure rfl
  | some left => simpa [optionLeaves] using ho left

include hw in
theorem letStatement_keeps (hk : cursor.current.kind = .letWord) :
    KeepsAt [] Stmt.leaves (letStatement whole) cursor := by
  refine .skip_bind (by rw [hk]; rfl) (identifier_keeps.bind fun name => ?_)
  refine (Keeps.expect rfl).bind fun _ => (hw.after (Leaf.ofName name)).bind fun value => ?_
  split
  · exact .current_bind fun token cursor => .report_bind rfl (Keeps.pure rfl cursor)
  · exact (Keeps.expect rfl).bind fun _ => .pure rfl

include hw in
theorem returnStatement_keeps (hk : cursor.current.kind = .returnWord) :
    KeepsAt [] Stmt.leaves (returnStatement whole) cursor := by
  refine .skip_bind (by rw [hk]; rfl) ((hw.ended rfl).bind fun value => .pure ?_)
  simp

include hw hs in
theorem ifStatement_keeps (hk : cursor.current.kind = .ifWord) :
    KeepsAt [] Stmt.leaves (ifStatement whole bound statement) cursor := by
  refine .skip_bind (by rw [hk]; rfl) ((parenthesised_keeps hw).bind fun condition => ?_)
  refine ((block_keeps hs bound).after _).bind fun body rest => ?_
  rw [KeepsAt.isAt_bind]
  by_cases hother : rest.current.kind = .elseWord
  · simp only [hother, decide_true, if_true]
    refine .skip_bind (by rw [hother]; rfl) (((block_keeps hs bound).after _).bind fun other =>
      .pure ?_)
    simp
  · simp only [hother, decide_false, Bool.false_eq_true, if_false]
    refine Keeps.pure ?_ rest
    simp

include hw hs in
theorem whileStatement_keeps (hk : cursor.current.kind = .whileWord) :
    KeepsAt [] Stmt.leaves (whileStatement whole bound statement) cursor := by
  refine .skip_bind (by rw [hk]; rfl) ((parenthesised_keeps hw).bind fun condition => ?_)
  refine ((block_keeps hs bound).after _).bind fun body => .pure ?_
  simp

include hs in
theorem blockStatement_keeps (hk : cursor.current.kind = .openBrace) :
    KeepsAt [] Stmt.leaves (blockStatement bound statement) cursor := by
  refine .skip_bind (by rw [hk]; rfl) ((blockRest_keeps hs bound).bind fun body => .pure ?_)
  simp

include hs in
theorem definition_keeps (hk : cursor.current.kind = .fnWord)
    (hname : cursor.following.kind = .identifier) :
    KeepsAt [] Stmt.leaves (definition bound statement) cursor := by
  have hleaf : cursor.advance.current.leaf? = some (.name cursor.following.literal) := by
    change cursor.following.leaf? = _
    simp [Token.leaf?, hname]
  have hword : cursor.current.kind.makesLeaf = false := by
    rw [hk]
    rfl
  refine .advance_bind (Token.isUnread_of_not_makesLeaf hword) ?_
  rw [Token.leaf?_of_not_makesLeaf hword]
  refine .leaf_bind hleaf (signature_keeps hs bound _ fun names body => ?_)
  simp [Cursor.following]

include hw in
theorem expressionStatement_keeps : Keeps [] Stmt.leaves (expressionStatement whole) := by
  refine (hw.ended rfl).bind fun value => .pure ?_
  simp

include hw hs in
theorem statementWith_keeps : Keeps [] Stmt.leaves (statementWith whole bound statement) := by
  intro cursor
  rw [statementWith, KeepsAt.current_bind, KeepsAt.following_bind]
  split
  case h_1 hk => exact letStatement_keeps hw hk
  case h_2 hk => exact returnStatement_keeps hw hk
  case h_3 hk => exact ifStatement_keeps hw hs bound hk
  case h_4 hk => exact whileStatement_keeps hw hs bound hk
  case h_5 hk => exact blockStatement_keeps hs bound hk
  case h_6 hk hname => exact definition_keeps hs bound hk hname
  case h_7 => exact expressionStatement_keeps hw cursor

end Parts

-- What holds without fuel is kept with more of it: a part that reads nothing loses nothing.
theorem keeps (fuel : Nat) :
    (∀ floor, Keeps [] Expr.leaves (expression fuel floor)) ∧
      (∀ floor left, Keeps left.leaves Expr.leaves (operators fuel floor left)) ∧
      Keeps [] optionLeaves (operand fuel) ∧ Keeps [] Stmt.leaves (statement fuel) := by
  induction fuel with
  | zero => exact ⟨fun _ => .pure rfl, fun _ _ => .pure rfl, .pure rfl, .pure rfl⟩
  | succ fuel ih =>
      obtain ⟨he, ho, hd, hs⟩ := ih
      exact ⟨fun floor => expressionWith_keeps hd (ho floor),
        fun floor => operatorsWith_keeps he fuel (ho floor) floor,
        operandWith_keeps he hs fuel, statementWith_keeps (he _) hs fuel⟩

end Parser

namespace Token

variable {token : Token}

-- Of the literals of a source, only those of large integers have no value.
theorem Lexed.isUnread_eq (h : token.Lexed) : token.isUnread = token.isOversized := by
  unfold isUnread isOversized
  by_cases hi : token.kind = .integer
  · have hread := h.integer_read hi
    by_cases hle : token.decimal ≤ 2147483647
    · simp [leaf?, hi, hread, hle, TokenKind.makesLeaf]
    · simp [leaf?, hi, hread, hle, TokenKind.makesLeaf]
      omega
  · by_cases hf : token.kind = .float
    · obtain ⟨bits, -, hread⟩ := h.float_read hf
      simp [leaf?, hf, hread]
    · cases hk : token.kind <;> simp_all [leaf?, TokenKind.makesLeaf]

theorem Lexed.isSome_leaf? (h : token.Lexed) :
    token.leaf?.isSome = (token.kind.makesLeaf && !token.isOversized) := by
  rw [← h.isUnread_eq, isUnread]
  by_cases hk : token.kind.makesLeaf
  · simp [hk]
  · have hleaf := leaf?_of_not_makesLeaf (by simpa using hk)
    simp [hk, hleaf]

end Token

theorem Cursor.parse_keeps (cursor : Cursor) :
    Reader.KeepsAt [] Program.leaves Cursor.parse cursor := by
  obtain ⟨hleaves, hunread⟩ := (Parser.keeps (Parser.fuelFor cursor)).2.2.2.itemsUntil .eof
    (Parser.fuelFor cursor) cursor
  refine ⟨?_, hunread⟩
  rw [Program.leaves_eq]
  exact hleaves

-- Every name and literal of a source is a leaf of its program, at its place in the order, except
-- the integers that are too large. Just those are objected to as literals.
theorem parse_leaves (source : String) :
    (parse source).program.leaves.map some =
        ((tokenize source).filter fun token =>
          token.kind.makesLeaf && !token.isOversized).map Token.leaf? ∧
      (parse source).diagnostics.filterMap Diagnostic.literal? =
        (tokenize source).filter Token.isOversized := by
  have hlexed := Cursor.ofSource_lexed source
  obtain ⟨hleaves, hunread⟩ := (Cursor.ofSource source).parse_keeps
  simp only [Cursor.leaves, Cursor.unread, parse_ahead, List.filterMap_nil, List.filter_nil,
    List.append_nil, List.nil_append] at hleaves hunread
  have hkept : (Cursor.ofSource source).ahead.filter (fun token => token.leaf?.isSome) =
      (Cursor.ofSource source).ahead.filter fun token =>
        token.kind.makesLeaf && !token.isOversized :=
    List.filter_congr fun token hmem => (hlexed token hmem).isSome_leaf?
  have hlost : (Cursor.ofSource source).ahead.filter Token.isUnread =
      (Cursor.ofSource source).ahead.filter Token.isOversized :=
    List.filter_congr fun token hmem => (hlexed token hmem).isUnread_eq
  rw [tokenize, Cursor.toList, List.filter_append, List.filter_append, ← hkept, ← hlost, ← hunread]
  constructor
  · change (Cursor.ofSource source).parse.value.leaves.map some = _
    rw [hleaves, List.map_filterMap_some_eq_filter_map_isSome, List.filter_map]
    simp [Cursor.finish, TokenKind.makesLeaf, Function.comp_def]
  · simp [parse, Cursor.finish, Token.isOversized]

end Capuchin
