import Capuchin.Proofs.Syntax.Fuel
import Capuchin.Proofs.Syntax.Grammar
import Capuchin.Proofs.Token.Lexemes
import Mathlib.Tactic.ByContra

-- The tokens of a source spell the tree the parser makes of it, as long as nothing is objected to.
namespace Capuchin

open Grammar (Ending Nonterminal Derives)

-- Parts of a tree.
inductive Phrase where
  | statements (body : List Stmt)
  | statement (stmt : Stmt)
  | block (body : List Stmt)
  | names (names : List (Option String))
  | furtherNames (names : List (Option String))
  | expressions (exprs : List Expr)
  | furtherExpressions (exprs : List Expr)
  | expression (ending : Ending) (expr : Expr)

-- The tokens of a part of a tree, in order. Only parentheses around expressions are free.
inductive Spelled : Phrase → List Token → Prop where
  | noStatements : Spelled (.statements []) []
  | statements : Spelled (.statement stmt) u → Spelled (.statements body) v →
      Spelled (.statements (stmt :: body)) (u ++ v)
  | bind : word.kind = .letWord → name.kind = .identifier → mark.kind = .assign →
      Spelled (.expression ending value) w → value ≠ .missing → last.kind = .semiColon →
      Spelled (.statement (.bind (some name.literal) value)) (word :: name :: mark :: w ++ [last])
  | giveBack : word.kind = .returnWord → Spelled (.expression ending value) w →
      last.kind = .semiColon → Spelled (.statement (.giveBack value)) (word :: w ++ [last])
  | ifThen : word.kind = .ifWord → left.kind = .openParen →
      Spelled (.expression .whole condition) w → right.kind = .closeParen →
      Spelled (.block body) u →
      Spelled (.statement (.ifThen condition body)) (word :: left :: w ++ right :: u)
  | ifElse : word.kind = .ifWord → left.kind = .openParen →
      Spelled (.expression .whole condition) w → right.kind = .closeParen →
      Spelled (.block body) u → other.kind = .elseWord → Spelled (.block alternative) v →
      Spelled (.statement (.ifElse condition body alternative))
        (word :: left :: w ++ right :: (u ++ other :: v))
  | whileLoop : word.kind = .whileWord → left.kind = .openParen →
      Spelled (.expression .whole condition) w → right.kind = .closeParen →
      Spelled (.block body) u →
      Spelled (.statement (.whileLoop condition body)) (word :: left :: w ++ right :: u)
  | blockStatement : Spelled (.block body) w → Spelled (.statement (.block body)) w
  | define : word.kind = .fnWord → name.kind = .identifier → left.kind = .openParen →
      Spelled (.names names) w → right.kind = .closeParen → Spelled (.block body) u →
      Spelled (.statement (.define name.literal names body))
        (word :: name :: left :: w ++ right :: u)
  | expressionStatement : Spelled (.expression ending value) w → last.kind = .semiColon →
      Spelled (.statement (.expression value)) (w ++ [last])
  | block : left.kind = .openBrace → Spelled (.statements body) w → right.kind = .closeBrace →
      Spelled (.block body) (left :: w ++ [right])
  | noNames : Spelled (.names []) []
  | names : name.kind = .identifier → Spelled (.furtherNames names) w →
      Spelled (.names (some name.literal :: names)) (name :: w)
  | noFurtherNames : Spelled (.furtherNames []) []
  | furtherNames : comma.kind = .comma → name.kind = .identifier →
      Spelled (.furtherNames names) w →
      Spelled (.furtherNames (some name.literal :: names)) (comma :: name :: w)
  | noExpressions : Spelled (.expressions []) []
  | expressions : Spelled (.expression .whole expr) u → Spelled (.furtherExpressions exprs) v →
      Spelled (.expressions (expr :: exprs)) (u ++ v)
  | noFurtherExpressions : Spelled (.furtherExpressions []) []
  | furtherExpressions : comma.kind = .comma → Spelled (.expression .whole expr) u →
      Spelled (.furtherExpressions exprs) v →
      Spelled (.furtherExpressions (expr :: exprs)) (comma :: u ++ v)
  | missing : Spelled (.expression .cut .missing) []
  | identifier : name.kind = .identifier →
      Spelled (.expression .whole (.identifier name.literal)) [name]
  | integer : token.kind = .integer → Integer.read? token.literal = some value →
      Spelled (.expression .whole (.integer value)) [token]
  | float : token.kind = .float → FloatText.read? token.literal = some value →
      Spelled (.expression .whole (.float value)) [token]
  | string : token.kind = .string → Spelled (.expression .whole (.string token.literal)) [token]
  | trueWord : token.kind = .trueWord → Spelled (.expression .whole (.boolean true)) [token]
  | falseWord : token.kind = .falseWord → Spelled (.expression .whole (.boolean false)) [token]
  | array : left.kind = .openBracket → Spelled (.expressions elements) w →
      right.kind = .closeBracket →
      Spelled (.expression .whole (.array elements)) (left :: w ++ [right])
  | binary : Spelled (.expression .whole left) u → BinaryOp.ofToken? token.kind = some op →
      Spelled (.expression ending right) v →
      Spelled (.expression ending (.binary op left right)) (u ++ token :: v)
  | unary : UnaryOp.ofToken? token.kind = some op → Spelled (.expression ending operand) w →
      Spelled (.expression ending (.unary op operand)) (token :: w)
  | call : Spelled (.expression .whole callee) u → left.kind = .openParen →
      Spelled (.expressions arguments) v → right.kind = .closeParen →
      Spelled (.expression .whole (.call callee arguments)) (u ++ (left :: v ++ [right]))
  | index : Spelled (.expression .whole array) u → left.kind = .openBracket →
      Spelled (.expression .whole position) v → right.kind = .closeBracket →
      Spelled (.expression .whole (.index array position)) (u ++ (left :: v ++ [right]))
  | assignment : name.kind = .identifier → mark.kind = .assign →
      Spelled (.expression ending value) w →
      Spelled (.expression ending (.assignment name.literal value)) (name :: mark :: w)
  | function : word.kind = .fnWord → left.kind = .openParen → Spelled (.names names) w →
      right.kind = .closeParen → Spelled (.block body) u →
      Spelled (.expression .whole (.function names body)) (word :: left :: w ++ right :: u)
  | grouped : left.kind = .openParen → Spelled (.expression .whole expr) w →
      right.kind = .closeParen → Spelled (.expression .whole expr) (left :: w ++ [right])

@[simp] def Phrase.nonterminal : Phrase → Nonterminal
  | .statements _ => .statements
  | .statement _ => .statement
  | .block _ => .block
  | .names _ => .separated .name
  | .furtherNames _ => .further .name
  | .expressions _ => .separated (.expression .whole)
  | .furtherExpressions _ => .further (.expression .whole)
  | .expression ending _ => .expression ending

namespace Spelled

theorem ne_nil (h : Spelled (.expression ending expr) w) (hne : expr ≠ .missing) : w ≠ [] := by
  cases h with
  | missing => contradiction
  | _ => simp

-- What is spelled is in the grammar.
theorem derives (h : Spelled phrase w) : Derives phrase.nonterminal (w.map Token.kind) := by
  induction h with
  | noStatements => exact .noStatements
  | statements _ _ ihs ihr => simpa using Derives.statements ihs ihr
  | bind hword hname hmark hvalue hne hlast ih =>
      have hnil : _ ≠ [] := mt (List.map_eq_nil_iff (f := Token.kind)).mp (hvalue.ne_nil hne)
      simpa [hword, hname, hmark, hlast] using Derives.letStatement ih hnil
  | giveBack hword _ hlast ih => simpa [hword, hlast] using Derives.returnStatement ih
  | ifThen hword hleft _ hright _ ihc ihb =>
      simpa [hword, hleft, hright] using Derives.ifThen ihc ihb
  | ifElse hword hleft _ hright _ hother _ ihc ihb iha =>
      simpa [hword, hleft, hright, hother] using Derives.ifElse ihc ihb iha
  | whileLoop hword hleft _ hright _ ihc ihb =>
      simpa [hword, hleft, hright] using Derives.whileLoop ihc ihb
  | blockStatement _ ih => exact .blockStatement ih
  | define hword hname hleft _ hright _ ihn ihb =>
      simpa [hword, hname, hleft, hright] using Derives.definition ihn ihb
  | expressionStatement _ hlast ih => simpa [hlast] using Derives.expressionStatement ih
  | block hleft _ hright ih => simpa [hleft, hright] using Derives.block ih
  | noNames => exact .noItems
  | names hname _ ih => simpa [hname] using Derives.separated .name ih
  | noFurtherNames => exact .noFurther
  | furtherNames hcomma hname _ ih => simpa [hcomma, hname] using Derives.further .name ih
  | noExpressions => exact .noItems
  | expressions _ _ ihe ihr => simpa using Derives.separated ihe ihr
  | noFurtherExpressions => exact .noFurther
  | furtherExpressions hcomma _ _ ihe ihr => simpa [hcomma] using Derives.further ihe ihr
  | missing => exact .single .absent
  | identifier hk => simpa [hk] using Derives.identifier.expression_primary
  | integer hk _ => simpa [hk] using Derives.integer.expression_primary
  | float hk _ => simpa [hk] using Derives.float.expression_primary
  | string hk => simpa [hk] using Derives.string.expression_primary
  | trueWord hk => simpa [hk] using Derives.trueWord.expression_primary
  | falseWord hk => simpa [hk] using Derives.falseWord.expression_primary
  | array hleft _ hright ih => simpa [hleft, hright] using (Derives.array ih).expression_primary
  | binary _ hop _ ihl ihr => simpa using Derives.expression_binary ihl hop ihr
  | unary hop _ ih => simpa using Derives.expression_unary hop ih
  | call _ hleft _ hright ihc iha =>
      simpa [hleft, hright] using Derives.expression_append ihc (.call iha .noPostfix)
  | index _ hleft _ hright iha ihp =>
      simpa [hleft, hright] using Derives.expression_append iha (.index ihp .noPostfix)
  | @assignment ending _ _ _ _ hname hmark _ ih =>
      cases ending with
      | whole => simpa [hname, hmark] using (Derives.assignment ih).expression_primary
      | cut => simpa [hname, hmark] using Derives.single (.cutAssignment ih)
  | function hword hleft _ hright _ ihn ihb =>
      simpa [hword, hleft, hright] using (Derives.function ihn ihb).expression_primary
  | grouped hleft _ hright ih =>
      simpa [hleft, hright] using (Derives.grouped ih).expression_primary

-- A spelled integer has a value that fits.
theorem integer_read (h : Spelled phrase w) :
    ∀ token ∈ w, token.kind = .integer → (Integer.read? token.literal).isSome := by
  induction h with
  | binary _ hop _ ihl ihr =>
      have hne := BinaryOp.kind_ne hop .integer rfl
      simpa [or_imp, forall_and, hne] using ⟨ihl, ihr⟩
  | unary hop _ ih =>
      have hne := UnaryOp.kind_ne hop .integer rfl
      simpa [hne] using ih
  | _ => simp_all [or_imp]

-- No part of a tree is spelled by text that starts no token.
theorem ne_illegal (h : Spelled phrase w) : ∀ token ∈ w, token.kind ≠ .illegal := by
  induction h with
  | binary _ hop _ ihl ihr =>
      have hne := BinaryOp.kind_ne hop .illegal rfl
      simpa [or_imp, forall_and, hne] using ⟨ihl, ihr⟩
  | unary hop _ ih =>
      have hne := UnaryOp.kind_ne hop .illegal rfl
      simpa [hne] using ih
  | _ => simp_all [or_imp]

end Spelled

-- A statement that comes to an end.
def Closed (w : List Token) : Prop :=
  ∃ front last, w = front ++ [last] ∧ (last.kind = .semiColon ∨ last.kind = .closeBrace)

theorem Closed.append_left (u : List Token) {v : List Token} (h : Closed v) : Closed (u ++ v) := by
  obtain ⟨front, last, rfl, hlast⟩ := h
  exact ⟨u ++ front, last, by simp, hlast⟩

theorem Closed.cons (token : Token) {w : List Token} (h : Closed w) : Closed (token :: w) :=
  h.append_left [token]

-- The parts of a tree that end with the last token of a statement, if there is one.
def Phrase.Ends : Phrase → List Token → Prop
  | .statements body, w => body = [] ∧ w = [] ∨ Closed w
  | .statement _, w | .block _, w => Closed w
  | _, _ => True

theorem Spelled.ends (h : Spelled phrase w) : phrase.Ends w := by
  induction h with
  | noStatements => exact .inl ⟨rfl, rfl⟩
  | statements _ _ ihs ihr =>
      obtain ⟨-, rfl⟩ | hclosed := ihr
      · rw [List.append_nil]
        exact .inr ihs
      · exact .inr (hclosed.append_left _)
  | bind _ _ _ _ _ hlast => exact ⟨_, _, rfl, .inl hlast⟩
  | giveBack _ _ hlast => exact ⟨_, _, rfl, .inl hlast⟩
  | ifThen _ _ _ _ _ _ ihb => exact (Closed.cons _ ihb).append_left _
  | ifElse _ _ _ _ _ _ _ _ _ iha => exact (((iha.cons _).append_left _).cons _).append_left _
  | whileLoop _ _ _ _ _ _ ihb => exact (Closed.cons _ ihb).append_left _
  | blockStatement _ ih => exact ih
  | define _ _ _ _ _ _ _ ihb => exact (Closed.cons _ ihb).append_left _
  | expressionStatement _ hlast => exact ⟨_, _, rfl, .inl hlast⟩
  | block _ _ hright => exact ⟨_, _, rfl, .inr hright⟩
  | _ => exact trivial

theorem Cursor.room_le_of_append {a b : Cursor} {used : List Token}
    (h : a.ahead = used ++ b.ahead) : b.room ≤ a.room := by
  rw [room, room, h, List.length_append]
  omega

namespace Reader

-- Without an objection, the tokens a reader takes, its value and the cursor behind are as `post`
-- says.
def Clean (post : List Token → α → Cursor → Prop) (reader : Reader α) (cursor : Cursor) : Prop :=
  (reader cursor).diagnostics = [] →
    ∃ used, cursor.ahead = used ++ (reader cursor).rest.ahead ∧
      post used (reader cursor).value (reader cursor).rest

namespace Clean

variable {cursor : Cursor} {P : List Token → α → Cursor → Prop}
  {Q : List Token → β → Cursor → Prop} {reader : Reader α}

theorem pure {value : α} (h : P [] value cursor) : Clean P (pure value) cursor :=
  fun _ => ⟨[], rfl, h⟩

theorem mono {R : List Token → α → Cursor → Prop} (h : Clean P reader cursor)
    (hp : ∀ used value rest, cursor.ahead = used ++ rest.ahead → P used value rest →
      R used value rest) : Clean R reader cursor := by
  intro hclean
  obtain ⟨used, hused, hpost⟩ := h hclean
  exact ⟨used, hused, hp _ _ _ hused hpost⟩

theorem bind {next : α → Reader β} (h : Clean P reader cursor)
    (hn : ∀ used value rest, cursor.ahead = used ++ rest.ahead → P used value rest →
      Clean (fun more => Q (used ++ more)) (next value) rest) :
    Clean Q (reader >>= next) cursor := by
  intro hclean
  rw [bind_apply, List.append_eq_nil_iff] at hclean
  obtain ⟨used, hused, hpost⟩ := h hclean.1
  obtain ⟨more, hmore, hother⟩ := hn _ _ _ hused hpost hclean.2
  refine ⟨used ++ more, ?_, hother⟩
  rw [hused, hmore, List.append_assoc]
  rfl

theorem map {f : α → β} (h : Clean P reader cursor)
    (hp : ∀ used value rest, P used value rest → Q used (f value) rest) :
    Clean Q (f <$> reader) cursor := by
  rw [map_eq_pure_bind]
  refine h.bind fun used value rest _ hpost => .pure ?_
  rw [List.append_nil]
  exact hp _ _ _ hpost

theorem congr {same : Reader α} (h : reader cursor = same cursor) (hs : Clean P same cursor) :
    Clean P reader cursor := by
  rw [Clean, h]
  exact hs

theorem report_bind {diagnostic : Diagnostic} {next : Unit → Reader α} :
    Clean P (report diagnostic >>= next) cursor := by
  intro hclean
  simp at hclean

theorem current_bind {next : Token → Reader α} :
    Clean P (current >>= next) cursor ↔ Clean P (next cursor.current) cursor := Iff.rfl

theorem following_bind {next : Token → Reader α} :
    Clean P (following >>= next) cursor ↔ Clean P (next cursor.following) cursor := Iff.rfl

theorem isAt_bind {kind : TokenKind} {next : Bool → Reader α} :
    Clean P (isAt kind >>= next) cursor ↔
      Clean P (next (cursor.current.kind = kind)) cursor := Iff.rfl

theorem advance_bind {next : Token → Reader α} (hk : cursor.current.kind ≠ .eof)
    (hn : cursor.advance.room < cursor.room →
      Clean (fun more => P (cursor.current :: more)) (next cursor.current) cursor.advance) :
    Clean P (advance >>= next) cursor := by
  intro hclean
  rw [bind_apply, List.append_eq_nil_iff] at hclean
  obtain ⟨more, hmore, hpost⟩ := hn (Cursor.room_advance_lt hk) hclean.2
  refine ⟨cursor.current :: more, ?_, hpost⟩
  rw [Cursor.ahead_eq_cons hk, hmore]
  rfl

theorem takes_bind {next : α → Reader β} (h : Clean P reader cursor) (ht : Takes reader cursor)
    (hk : cursor.current.kind ≠ .eof)
    (hn : ∀ used value rest, rest.room < cursor.room → P used value rest →
      Clean (fun more => Q (used ++ more)) (next value) rest) :
    Clean Q (reader >>= next) cursor := by
  have hlt := Nat.lt_of_le_of_lt (Cursor.Within.room_le ht) (Cursor.room_advance_lt hk)
  refine Clean.bind (P := fun used value rest => P used value rest ∧ rest.room < cursor.room) ?_
    fun used value rest _ hpost => hn used value rest hpost.2 hpost.1
  intro hclean
  obtain ⟨used, hused, hpost⟩ := h hclean
  exact ⟨used, hused, hpost, hlt⟩

-- The token `expect` looks for is the current one.
theorem expect_bind {kind : TokenKind} {next : Unit → Reader α} (hk : kind ≠ .eof)
    (hn : cursor.current.kind = kind → cursor.advance.room < cursor.room →
      Clean (fun more => P (cursor.current :: more)) (next ()) cursor.advance) :
    Clean P (expect kind >>= next) cursor := by
  by_cases h : cursor.current.kind = kind
  · have hne : cursor.current.kind ≠ .eof := by rw [h]; exact hk
    have he : expect kind cursor = ⟨(), cursor.advance, []⟩ := by simp [expect, h]
    intro hclean
    rw [bind_apply, he, List.nil_append] at hclean
    obtain ⟨more, hmore, hpost⟩ := hn h (Cursor.room_advance_lt hne) hclean
    refine ⟨cursor.current :: more, ?_, ?_⟩
    · rw [Cursor.ahead_eq_cons hne, hmore, bind_apply, he]
      rfl
    · rw [bind_apply, he]
      exact hpost
  · intro hclean
    simp [expect, h] at hclean

end Clean

end Reader

namespace Parser

open Reader

-- The tokens behind others that spell an expression with them. A missing end is where a semicolon
-- stands.
def Expressed (before used : List Token) (expr : Expr) (rest : Cursor) : Prop :=
  ∃ ending, Spelled (.expression ending expr) (before ++ used) ∧
    (ending = .cut → rest.current.kind = .semiColon)

theorem Expressed.whole {before used : List Token} {expr : Expr} {rest : Cursor}
    (h : Expressed before used expr rest) (hk : rest.current.kind ≠ .semiColon) :
    Spelled (.expression .whole expr) (before ++ used) := by
  obtain ⟨ending, hspelled, hcut⟩ := h
  cases ending with
  | whole => exact hspelled
  | cut => exact absurd (hcut rfl) hk

theorem expressed_of_whole {before used : List Token} {expr : Expr} {rest : Cursor}
    (h : Spelled (.expression .whole expr) (before ++ used)) : Expressed before used expr rest :=
  ⟨.whole, h, nofun⟩

section Parts

variable {room : Nat} {whole : Reader Expr} {above : Precedence → Reader Expr}
  {statement : Reader Stmt} {cursor : Cursor}
  (hw : ∀ cursor : Cursor, cursor.room < room → Clean (Expressed []) whole cursor)
  (ha : ∀ floor, ∀ cursor : Cursor, cursor.room < room → Clean (Expressed []) (above floor) cursor)
  (hs : ∀ cursor : Cursor, cursor.room < room →
    Clean (fun used stmt _ => Spelled (.statement stmt) used) statement cursor)
  (bound : Nat) (hc : cursor.room < room + 1)

theorem identifier_clean :
    Clean (fun used name _ => ∃ token : Token, token.kind = .identifier ∧ used = [token] ∧
      name = some token.literal) identifier cursor := by
  rw [identifier, Clean.current_bind]
  split
  · rename_i hk
    refine .advance_bind (by simp [hk]) fun _ => .pure ⟨_, hk, rfl, rfl⟩
  · exact .report_bind
  · exact .report_bind

theorem furtherNames_clean :
    Clean (fun used names _ => Spelled (.furtherNames names) used) (moreItems identifier bound)
      cursor := by
  induction bound generalizing cursor with
  | zero => exact .pure .noFurtherNames
  | succ bound ih =>
      rw [moreItems, Clean.isAt_bind]
      split
      · rename_i hcomma
        rw [decide_eq_true_eq] at hcomma
        refine .advance_bind (by simp [hcomma]) fun _ => identifier_clean.bind ?_
        rintro _ _ rest - ⟨name, hname, rfl, rfl⟩
        refine ih.bind fun used names _ _ hnames => .pure ?_
        simpa using Spelled.furtherNames hcomma hname hnames
      · exact .pure .noFurtherNames

theorem parameters_clean :
    Clean (fun used names _ => ∃ w last, used = w ++ [last] ∧ last.kind = .closeParen ∧
      Spelled (.names names) w) (parameters bound) cursor := by
  rw [parameters, items, Clean.isAt_bind]
  split
  · rename_i hclose
    rw [decide_eq_true_eq] at hclose
    exact .advance_bind (by simp [hclose]) fun _ => .pure ⟨[], _, rfl, hclose, .noNames⟩
  · refine .bind (P := fun used names _ => Spelled (.names names) used) ?_ ?_
    · refine identifier_clean.bind ?_
      rintro _ _ rest - ⟨name, hname, rfl, rfl⟩
      refine (furtherNames_clean bound).bind fun used names _ _ hnames => .pure ?_
      simpa using Spelled.names hname hnames
    · intro used names rest _ hnames
      exact .expect_bind nofun fun hclose _ => .pure ⟨used, _, by simp, hclose, hnames⟩

-- An item with a missing end is followed by a semicolon, which ends the list and does not close it.
include hw in
theorem furtherExpressions_clean {before : List Token} {expr : Expr} (hc : cursor.room < room)
    (he : Expressed [] before expr cursor) :
    Clean (fun used exprs rest => rest.current.kind ≠ .semiColon →
      Spelled (.expression .whole expr) before ∧ Spelled (.furtherExpressions exprs) used)
      (moreItems whole bound) cursor := by
  induction bound generalizing before expr cursor with
  | zero => exact .pure fun hk => ⟨he.whole hk, .noFurtherExpressions⟩
  | succ bound ih =>
      rw [moreItems, Clean.isAt_bind]
      split
      · rename_i hcomma
        rw [decide_eq_true_eq] at hcomma
        refine .advance_bind (by simp [hcomma]) fun hlt =>
          .bind (hw _ (by omega)) fun used next rest hrest hnext => ?_
        have hle := Cursor.room_le_of_append hrest
        refine (ih (by omega) hnext).bind fun more exprs _ _ hmore => .pure fun hk => ?_
        obtain ⟨hspelled, hexprs⟩ := hmore hk
        refine ⟨he.whole (by simp [hcomma]), ?_⟩
        simpa using Spelled.furtherExpressions hcomma hspelled hexprs
      · exact .pure fun hk => ⟨he.whole hk, .noFurtherExpressions⟩

include hw in
theorem expressions_clean {close : TokenKind} (hc : cursor.room < room) (heof : close ≠ .eof)
    (hsemi : close ≠ .semiColon) :
    Clean (fun used exprs _ => ∃ w last, used = w ++ [last] ∧ last.kind = close ∧
      Spelled (.expressions exprs) w) (items bound close whole) cursor := by
  rw [items, Clean.isAt_bind]
  split
  · rename_i hclose
    rw [decide_eq_true_eq] at hclose
    exact .advance_bind (by simp [hclose, heof]) fun _ =>
      .pure ⟨[], _, rfl, hclose, .noExpressions⟩
  · refine .bind (P := fun used exprs rest => rest.current.kind ≠ .semiColon →
      Spelled (.expressions exprs) used) ?_ ?_
    · refine (hw cursor hc).bind fun used first rest hrest hfirst => ?_
      have hle := Cursor.room_le_of_append hrest
      refine (furtherExpressions_clean hw bound (by omega) hfirst).bind
        fun more exprs _ _ hmore => .pure fun hk => ?_
      obtain ⟨hspelled, hexprs⟩ := hmore hk
      simpa using Spelled.expressions hspelled hexprs
    · intro used exprs rest _ hexprs
      refine .expect_bind heof fun hclose _ => .pure ⟨used, _, by simp, hclose, hexprs ?_⟩
      rw [hclose]
      exact hsemi

include hw in
-- An expression in front of a token that closes it is there as a whole.
theorem enclosed_clean {close : TokenKind} (hc : cursor.room < room) (heof : close ≠ .eof)
    (hsemi : close ≠ .semiColon) :
    Clean (fun used expr _ => ∃ w last, used = w ++ [last] ∧ last.kind = close ∧
      Spelled (.expression .whole expr) w) (before close whole) cursor := by
  refine (hw cursor hc).bind fun used expr rest hrest hexpr => ?_
  refine .expect_bind heof fun hclose _ => .pure ⟨used, _, by simp, hclose, hexpr.whole ?_⟩
  rw [hclose]
  exact hsemi

include hw in
theorem parenthesised_clean (hc : cursor.room < room) :
    Clean (fun used expr _ => ∃ left w right, used = left :: w ++ [right] ∧
      left.kind = .openParen ∧ right.kind = .closeParen ∧ Spelled (.expression .whole expr) w)
      (parenthesised whole) cursor := by
  refine .expect_bind nofun fun hopen hlt => ?_
  refine (enclosed_clean hw (by omega) (by decide) (by decide)).mono ?_
  rintro _ expr _ - ⟨w, last, rfl, hlast, hw⟩
  exact ⟨_, w, last, rfl, hopen, hlast, hw⟩

include hs in
theorem statements_clean (stop : TokenKind) (hc : cursor.room < room) :
    Clean (fun used body _ => Spelled (.statements body) used) (itemsUntil stop statement bound)
      cursor := by
  induction bound generalizing cursor with
  | zero => exact .pure .noStatements
  | succ bound ih =>
      rw [itemsUntil, Clean.current_bind]
      dsimp only
      split
      · exact .pure .noStatements
      · refine (hs cursor hc).bind fun used first rest hrest hfirst => ?_
        have hle := Cursor.room_le_of_append hrest
        refine (ih (by omega)).bind fun more body _ _ hbody => .pure ?_
        simpa using Spelled.statements hfirst hbody

include hs in
theorem blockRest_clean {left : Token} (hl : left.kind = .openBrace) (hc : cursor.room < room) :
    Clean (fun used body _ => Spelled (.block body) (left :: used)) (blockRest bound statement)
      cursor := by
  refine (statements_clean hs bound _ hc).bind fun used body rest _ hbody => ?_
  refine .expect_bind nofun fun hclose _ => .pure ?_
  exact Spelled.block hl hbody hclose

include hs in
theorem block_clean (hc : cursor.room < room) :
    Clean (fun used body _ => Spelled (.block body) used) (block bound statement) cursor :=
  .expect_bind nofun fun hl _ => blockRest_clean hs bound hl (by omega)

section Operators

variable {before : List Token} {left : Expr} (hl : Spelled (.expression .whole left) before)

include ha hl hc in
theorem binary_clean {op : BinaryOp} (hop : BinaryOp.ofToken? cursor.current.kind = some op) :
    Clean (Expressed before) (binary above op left) cursor := by
  refine .advance_bind (BinaryOp.kind_ne hop .eof rfl) fun hlt => ?_
  refine (ha _ _ (by omega)).bind fun used right rest _ hright => .pure ?_
  obtain ⟨ending, hspelled, hcut⟩ := hright
  refine ⟨ending, ?_, hcut⟩
  simpa using hl.binary hop hspelled

include hw hl hc in
theorem call_clean (hk : cursor.current.kind = .openParen) :
    Clean (Expressed before) (call whole bound left) cursor := by
  refine .advance_bind (by simp [hk]) fun hlt => ?_
  refine (expressions_clean hw bound (by omega) (by decide) (by decide)).bind ?_
  rintro _ exprs _ - ⟨w, last, rfl, hlast, hexprs⟩
  refine .pure (expressed_of_whole ?_)
  simpa using hl.call hk hexprs hlast

include hw hl hc in
theorem index_clean (hk : cursor.current.kind = .openBracket) :
    Clean (Expressed before) (index whole left) cursor := by
  refine .advance_bind (by simp [hk]) fun hlt => ?_
  refine (enclosed_clean hw (by omega) (by decide) (by decide)).bind ?_
  rintro _ position _ - ⟨w, last, rfl, hlast, hposition⟩
  refine .pure (expressed_of_whole ?_)
  simpa using hl.index hk hposition hlast

end Operators

include hw hc in
theorem nameOrAssignment_clean (hk : cursor.current.kind = .identifier) :
    Clean (Expressed []) (nameOrAssignment whole) cursor := by
  refine .advance_bind (by simp [hk]) fun hlt => ?_
  rw [Clean.isAt_bind]
  split
  · rename_i hassign
    rw [decide_eq_true_eq] at hassign
    refine .advance_bind (by simp [hassign]) fun hless => ?_
    refine (hw _ (by omega)).bind fun used value rest _ hvalue => .pure ?_
    obtain ⟨ending, hspelled, hcut⟩ := hvalue
    refine ⟨ending, ?_, hcut⟩
    simpa using Spelled.assignment hk hassign hspelled
  · exact .pure (expressed_of_whole (.identifier hk))

include hw hc in
theorem grouped_clean (hk : cursor.current.kind = .openParen) :
    Clean (Expressed []) (grouped whole) cursor := by
  refine .advance_bind (by simp [hk]) fun hlt => ?_
  refine (enclosed_clean hw (by omega) (by decide) (by decide)).mono ?_
  rintro _ expr _ - ⟨w, last, rfl, hlast, hexpr⟩
  exact expressed_of_whole (.grouped hk hexpr hlast)

include hw hc in
theorem arrayLiteral_clean (hk : cursor.current.kind = .openBracket) :
    Clean (Expressed []) (arrayLiteral whole bound) cursor := by
  refine .advance_bind (by simp [hk]) fun hlt => ?_
  refine (expressions_clean hw bound (by omega) (by decide) (by decide)).bind ?_
  rintro _ exprs _ - ⟨w, last, rfl, hlast, hexprs⟩
  refine .pure (expressed_of_whole ?_)
  simpa using Spelled.array hk hexprs hlast

include hs hc in
theorem functionLiteral_clean (hk : cursor.current.kind = .fnWord) :
    Clean (Expressed []) (functionLiteral bound statement) cursor := by
  refine .advance_bind (by simp [hk]) fun hlt => .expect_bind nofun fun hopen hless => ?_
  refine (parameters_clean bound).bind ?_
  rintro _ names rest hrest ⟨w, last, rfl, hlast, hnames⟩
  have hle := Cursor.room_le_of_append hrest
  refine (block_clean hs bound (by omega)).bind fun used body _ _ hbody => .pure ?_
  apply expressed_of_whole
  simpa using Spelled.function hk hopen hnames hlast hbody

include ha hc in
theorem unary_clean {op : UnaryOp} (hop : UnaryOp.ofToken? cursor.current.kind = some op) :
    Clean (Expressed []) (unary above op) cursor := by
  refine .advance_bind (UnaryOp.kind_ne hop .eof rfl) fun hlt => ?_
  refine (ha _ _ (by omega)).bind fun used operand rest _ hoperand => .pure ?_
  obtain ⟨ending, hspelled, hcut⟩ := hoperand
  refine ⟨ending, ?_, hcut⟩
  simpa using Spelled.unary hop hspelled

-- An operand is an expression, or it is not there and a semicolon is.
def Optional (used : List Token) : Option Expr → Cursor → Prop
  | none, rest => used = [] ∧ rest.current.kind = .semiColon
  | some expr, rest => Expressed [] used expr rest

theorem literal_clean {token : Token} {value : Option Expr}
    (h : ∀ expr, value = some expr → Spelled (.expression .whole expr) [token]) :
    Clean (fun used => Optional (token :: used)) (some <$> literal token value) cursor := by
  cases value with
  | some expr =>
      rw [literal, map_pure]
      exact .pure (expressed_of_whole (h expr rfl))
  | none =>
      intro hclean
      simp [literal] at hclean

include ha hs hc in
theorem operandWith_clean : Clean Optional (operandWith above bound statement) cursor := by
  rw [operandWith, Clean.current_bind]
  split
  · exact .report_bind
  · rename_i hk
    exact .pure ⟨rfl, hk⟩
  · rename_i hk
    refine .advance_bind (by simp [hk]) fun _ => literal_clean ?_
    intro expr hexpr
    obtain ⟨value, hvalue, rfl⟩ := Option.map_eq_some_iff.mp hexpr
    exact .integer hk hvalue
  · rename_i hk
    refine .advance_bind (by simp [hk]) fun _ => literal_clean ?_
    intro expr hexpr
    obtain ⟨value, hvalue, rfl⟩ := Option.map_eq_some_iff.mp hexpr
    exact .float hk hvalue
  · rename_i hk
    exact .advance_bind (by simp [hk]) fun _ => .pure (expressed_of_whole (.trueWord hk))
  · rename_i hk
    exact .advance_bind (by simp [hk]) fun _ => .pure (expressed_of_whole (.falseWord hk))
  · rename_i hk
    exact .advance_bind (by simp [hk]) fun _ => .pure (expressed_of_whole (.string hk))
  · rename_i hk
    exact (nameOrAssignment_clean (ha _) hc hk).map fun _ _ _ h => h
  · rename_i hk
    exact (grouped_clean (ha _) hc hk).map fun _ _ _ h => h
  · rename_i hk
    exact (arrayLiteral_clean (ha _) bound hc hk).map fun _ _ _ h => h
  · rename_i hk
    exact (functionLiteral_clean hs bound hc hk).map fun _ _ _ h => h
  · split
    · rename_i hop
      exact (unary_clean ha hc hop).map fun _ _ _ h => h
    · exact .report_bind

include hw in
-- The end of a statement may be missing its last primary.
theorem ended_clean (hc : cursor.room < room) :
    Clean (fun used expr _ => ∃ ending w last, used = w ++ [last] ∧ last.kind = .semiColon ∧
      Spelled (.expression ending expr) w) (before .semiColon whole) cursor := by
  refine (hw cursor hc).bind fun used expr rest _ hexpr => ?_
  obtain ⟨ending, hspelled, -⟩ := hexpr
  exact .expect_bind nofun fun hlast _ => .pure ⟨ending, used, _, by simp, hlast, hspelled⟩

include hw hc in
theorem letStatement_clean (hk : cursor.current.kind = .letWord) :
    Clean (fun used stmt _ => Spelled (.statement stmt) used) (letStatement whole) cursor := by
  refine .advance_bind (by simp [hk]) fun hlt => identifier_clean.bind ?_
  rintro _ _ rest hrest ⟨name, hname, rfl, rfl⟩
  have hle := Cursor.room_le_of_append hrest
  refine .expect_bind nofun fun hmark hless => ?_
  refine (hw _ (by omega)).bind fun used value rest _ hvalue => ?_
  obtain ⟨ending, hspelled, -⟩ := hvalue
  split
  · exact Clean.current_bind.mpr .report_bind
  · rename_i hne
    refine .expect_bind nofun fun hlast _ => .pure ?_
    simpa using Spelled.bind hk hname hmark hspelled hne hlast

include hw hc in
theorem returnStatement_clean (hk : cursor.current.kind = .returnWord) :
    Clean (fun used stmt _ => Spelled (.statement stmt) used) (returnStatement whole) cursor := by
  refine .advance_bind (by simp [hk]) fun hlt => (ended_clean hw (by omega)).bind ?_
  rintro _ value _ - ⟨ending, w, last, rfl, hlast, hvalue⟩
  refine .pure ?_
  simpa using Spelled.giveBack hk hvalue hlast

include hw hs hc in
theorem ifStatement_clean (hk : cursor.current.kind = .ifWord) :
    Clean (fun used stmt _ => Spelled (.statement stmt) used)
      (ifStatement whole bound statement) cursor := by
  refine .advance_bind (by simp [hk]) fun hlt => (parenthesised_clean hw (by omega)).bind ?_
  rintro _ condition rest hrest ⟨left, w, right, rfl, hleft, hright, hcondition⟩
  have hle := Cursor.room_le_of_append hrest
  refine (block_clean hs bound (by omega)).bind fun used body rest' hrest' hbody => ?_
  have hle' := Cursor.room_le_of_append hrest'
  rw [Clean.isAt_bind]
  split
  · rename_i helse
    rw [decide_eq_true_eq] at helse
    refine .advance_bind (by simp [helse]) fun hless => ?_
    refine (block_clean hs bound (by omega)).bind fun more alternative _ _ hmore => .pure ?_
    simpa using Spelled.ifElse hk hleft hcondition hright hbody helse hmore
  · refine .pure ?_
    simpa using Spelled.ifThen hk hleft hcondition hright hbody

include hw hs hc in
theorem whileStatement_clean (hk : cursor.current.kind = .whileWord) :
    Clean (fun used stmt _ => Spelled (.statement stmt) used)
      (whileStatement whole bound statement) cursor := by
  refine .advance_bind (by simp [hk]) fun hlt => (parenthesised_clean hw (by omega)).bind ?_
  rintro _ condition rest hrest ⟨left, w, right, rfl, hleft, hright, hcondition⟩
  have hle := Cursor.room_le_of_append hrest
  refine (block_clean hs bound (by omega)).bind fun used body _ _ hbody => .pure ?_
  simpa using Spelled.whileLoop hk hleft hcondition hright hbody

include hs hc in
theorem blockStatement_clean (hk : cursor.current.kind = .openBrace) :
    Clean (fun used stmt _ => Spelled (.statement stmt) used)
      (blockStatement bound statement) cursor := by
  refine .advance_bind (by simp [hk]) fun hlt => ?_
  refine (blockRest_clean hs bound hk (by omega)).bind fun used body _ _ hbody => .pure ?_
  simpa using Spelled.blockStatement hbody

include hs hc in
theorem definition_clean (hk : cursor.current.kind = .fnWord)
    (hname : cursor.following.kind = .identifier) :
    Clean (fun used stmt _ => Spelled (.statement stmt) used) (definition bound statement)
      cursor := by
  refine .advance_bind (by simp [hk]) fun hlt => ?_
  have hname : cursor.advance.current.kind = .identifier := hname
  refine .advance_bind (by simp [hname]) fun _ => .expect_bind nofun fun hopen _ => ?_
  refine (parameters_clean bound).bind ?_
  rintro _ names rest hrest ⟨w, last, rfl, hlast, hnames⟩
  have hle := Cursor.room_le_of_append hrest
  refine (block_clean hs bound (by omega)).bind fun used body _ _ hbody => .pure ?_
  simpa using Spelled.define hk hname hopen hnames hlast hbody

include hs hc in
theorem statementWith_clean
    (hw : ∀ cursor : Cursor, cursor.room < room + 1 → Clean (Expressed []) whole cursor) :
    Clean (fun used stmt _ => Spelled (.statement stmt) used)
      (statementWith whole bound statement) cursor := by
  have hl : ∀ cursor : Cursor, cursor.room < room → Clean (Expressed []) whole cursor :=
    fun cursor hcursor => hw cursor (by omega)
  rw [statementWith, Clean.current_bind, Clean.following_bind]
  split
  case h_1 hk => exact letStatement_clean hl hc hk
  case h_2 hk => exact returnStatement_clean hl hc hk
  case h_3 hk => exact ifStatement_clean hl hs bound hc hk
  case h_4 hk => exact whileStatement_clean hl hs bound hc hk
  case h_5 hk => exact blockStatement_clean hs bound hc hk
  case h_6 hk hname => exact definition_clean hs bound hc hk hname
  case h_7 =>
      refine (ended_clean hw hc).bind ?_
      rintro _ value _ - ⟨ending, w, last, rfl, hlast, hvalue⟩
      refine .pure ?_
      simpa using Spelled.expressionStatement hvalue hlast

end Parts

-- With fewer tokens to come than a bound, what is taken spells what comes of it.
structure Sound (room : Nat) : Prop where
  expression : ∀ floor, ∀ cursor : Cursor, cursor.room < room →
    Clean (Expressed []) (Reader.expression floor) cursor
  operators : ∀ floor left before, ∀ cursor : Cursor, cursor.room < room →
    Spelled (.expression .whole left) before →
      Clean (Expressed before) (Reader.operators floor left) cursor
  statement : ∀ cursor : Cursor, cursor.room < room →
    Clean (fun used stmt _ => Spelled (.statement stmt) used) Reader.statement cursor

-- In front of a semicolon, where a missing end leaves the parser, no operator is read.
theorem operators_clean_of {before : List Token} {left : Expr} {cursor : Cursor}
    {floor : Precedence}
    (ho : Spelled (.expression .whole left) before →
      Clean (Expressed before) (Reader.operators floor left) cursor)
    (hl : Expressed [] before left cursor) :
    Clean (Expressed before) (Reader.operators floor left) cursor := by
  obtain ⟨ending, hspelled, hcut⟩ := hl
  cases ending with
  | whole => exact ho hspelled
  | cut =>
      have hrank : (Precedence.ofToken cursor.current.kind).rank ≤ floor.rank := by
        rw [hcut rfl]
        exact Nat.zero_le _
      have hpure : Clean (Expressed before) (pure left) cursor :=
        .pure ⟨.cut, by simpa using hspelled, hcut⟩
      exact .congr (operators_of_rank_le hrank) hpure

theorem Sound.operators_succ {room : Nat} (hr : Sound room) {floor : Precedence} {left : Expr}
    {before : List Token} {cursor : Cursor} (hc : cursor.room < room + 1)
    (hl : Spelled (.expression .whole left) before) :
    Clean (Expressed before) (Reader.operators floor left) cursor := by
  have hgo : ∀ used value (rest : Cursor), rest.room < cursor.room →
      Expressed before used value rest →
        Clean (fun more => Expressed before (used ++ more)) (Reader.operators floor value)
          rest := by
    intro used value rest hlt hvalue
    have hrest : Expressed [] (before ++ used) value rest := hvalue
    refine (operators_clean_of (fun h => ?_) hrest).mono fun more value rest _ h => ?_
    · exact hr.operators floor value (before ++ used) rest (by omega) h
    · simpa [Expressed, List.append_assoc] using h
  refine .congr (operators_apply (Nat.le_refl _) _ _) ?_
  rw [operatorsWith, Clean.current_bind]
  dsimp only
  split
  · exact .pure (expressed_of_whole (by simpa using hl))
  · split
    · rename_i op hop
      exact (binary_clean hr.expression hc hl hop).takes_bind
        (binary_takes Reader.expression_stays cursor _ _) (BinaryOp.kind_ne hop .eof rfl) hgo
    · rename_i hk _
      exact (call_clean (hr.expression _) _ hc hl hk).takes_bind
        (call_takes (Reader.expression_stays _) _ cursor _) (by simp [hk]) hgo
    · rename_i hk _
      exact (index_clean (hr.expression _) hc hl hk).takes_bind
        (index_takes (Reader.expression_stays _) cursor _) (by simp [hk]) hgo
    · exact .pure (expressed_of_whole (by simpa using hl))

theorem Sound.expression_succ {room : Nat} (hr : Sound room) {floor : Precedence}
    {cursor : Cursor} (hc : cursor.room < room + 1) :
    Clean (Expressed []) (Reader.expression floor) cursor := by
  rw [expression_eq, expressionWith]
  refine .bind (.congr (operand_apply (Nat.le_refl _))
    (operandWith_clean hr.expression hr.statement _ hc)) fun used left rest hrest hleft => ?_
  have hle := Cursor.room_le_of_append hrest
  cases left with
  | none =>
      obtain ⟨rfl, hk⟩ := hleft
      exact .pure ⟨.cut, .missing, fun _ => hk⟩
  | some left => exact operators_clean_of (hr.operators_succ (by omega)) hleft

theorem Sound.succ {room : Nat} (hr : Sound room) : Sound (room + 1) where
  expression := fun _ _ hc => hr.expression_succ hc
  operators := fun _ _ _ _ hc hl => hr.operators_succ hc hl
  statement := fun _ hc => .congr (statement_apply (Nat.le_refl _))
    (statementWith_clean hr.statement _ hc fun _ h => hr.expression_succ h)

theorem sound (room : Nat) : Sound room := by
  induction room with
  | zero =>
      exact ⟨fun _ _ hc => absurd hc (Nat.not_lt_zero _),
        fun _ _ _ _ hc => absurd hc (Nat.not_lt_zero _),
        fun _ hc => absurd hc (Nat.not_lt_zero _)⟩
  | succ room ih => exact ih.succ

end Parser

-- The statements of a program reach to the end of the source.
theorem Reader.itemsUntil_rest (stop : TokenKind) {item : Reader α}
    (ht : ∀ cursor : Cursor, cursor.current.kind ≠ .eof → Takes item cursor) {bound : Nat}
    {cursor : Cursor} (hb : cursor.room ≤ bound) :
    (itemsUntil stop item bound cursor).rest.current.kind = .eof ∨
      (itemsUntil stop item bound cursor).rest.current.kind = stop := by
  induction bound generalizing cursor with
  | zero =>
      left
      by_contra hk
      have hpos : 0 < cursor.room := Cursor.room_pos hk
      omega
  | succ bound ih =>
      by_cases hk : cursor.current.kind = .eof ∨ cursor.current.kind = stop
      · rw [itemsUntil_of_stop hk]
        exact hk
      · have hne : cursor.current.kind ≠ .eof := fun h => hk (.inl h)
        have hlt := Nat.lt_of_le_of_lt (Cursor.Within.room_le (ht cursor hne))
          (Cursor.room_advance_lt hne)
        rw [itemsUntil_succ hk]
        exact ih (by omega)

theorem Cursor.ahead_eq_nil {cursor : Cursor} (h : cursor.current.kind = .eof)
    (hl : ∀ token ∈ cursor.ahead, token.kind ≠ .eof) : cursor.ahead = [] := by
  cases hahead : cursor.ahead with
  | nil => rfl
  | cons token rest =>
      have hk := hl token (by simp [hahead])
      simp [current, hahead] at h
      contradiction

-- The parser leaves no token of a source behind.
theorem parse_ahead (source : String) : (Cursor.ofSource source).parse.rest.ahead = [] := by
  have hparse := Cursor.parse_eq (Nat.le_refl (Cursor.ofSource source).room)
  have hrest := Reader.itemsUntil_rest .eof (fun _ => Reader.statement_takes)
    (Nat.le_refl (Cursor.ofSource source).room)
  have hwithin := Reader.Stays.itemsUntil .eof Reader.statement_stays
    (Cursor.ofSource source).room (Cursor.ofSource source)
  rw [or_self, ← hparse] at hrest
  rw [← hparse] at hwithin
  apply Cursor.ahead_eq_nil hrest
  intro token hmem
  exact (Cursor.ofSource_lexed source token (hwithin.2.subset hmem)).ne_eof

-- All tokens of a source without objections spell its program.
theorem parse_spelled {source : String} (h : (parse source).diagnostics = []) :
    Spelled (.statements (parse source).program) (Cursor.ofSource source).ahead := by
  have hclean : Reader.Clean (fun used body _ => Spelled (.statements body) used)
      (Reader.itemsUntil .eof Reader.statement (Cursor.ofSource source).room)
      (Cursor.ofSource source) :=
    Parser.statements_clean (Parser.sound _).statement _ _ (Nat.lt_succ_self _)
  rw [Reader.Clean, ← Cursor.parse_eq (Nat.le_refl _)] at hclean
  obtain ⟨used, hused, hspelled⟩ := hclean h
  rw [parse_ahead, List.append_nil] at hused
  rw [hused]
  exact hspelled

end Capuchin
