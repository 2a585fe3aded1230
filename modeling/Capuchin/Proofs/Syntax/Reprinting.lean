import Capuchin.Proofs.Syntax.Rereading
import Mathlib

-- What the parser makes of a source is what it makes of the text of what it has made.
namespace Capuchin

open Reader Cursor Lexer Rereading

namespace Rereading

namespace StmtRereads

variable {stmt : Stmt} {value condition : Expr} {body alternative : List Stmt}

-- A statement that begins with a word.
theorem of_word {kind : TokenKind} {word more : List Char} (hp : Piece kind word)
    (htext : ∀ rest, stmt.text.toList ++ rest = word ++ ' ' :: (more ++ rest))
    (hk : kind ≠ .eof ∧ kind ≠ .closeBrace ∧ kind ≠ .elseWord)
    (hreads : ∀ cursor rest, Begins (· ≠ .elseWord) rest → cursor.current.kind = kind →
      Cursor.At cursor.advance (more ++ rest) →
        ∃ middle : Cursor, middle.At rest ∧ Reads statement cursor stmt middle) :
    StmtRereads stmt where
  first := by
    intro cursor rest hat
    rw [htext] at hat
    rw [(hat.piece hp (.cons (by decide) _)).1]
    exact hk
  reads := by
    intro cursor rest hrest hat
    rw [htext] at hat
    obtain ⟨hkind, -, hadvance⟩ := hat.piece hp (.cons (by decide) _)
    exact hreads cursor rest hrest hkind (at_space.mp hadvance)

theorem bind {token : Token} (h : token.Lexed) (hk : token.kind = .identifier)
    (hv : Rereads value) (hne : value ≠ .missing) :
    StmtRereads (.bind (some token.literal) value) := by
  have hword : Piece .letWord "let".toList := piece_of_word (by decide)
  have hmark : Piece .assign "=".toList := piece_of_word (by decide)
  have hname := (piece_of_identifier h hk).1
  have htext : ∀ rest, (Stmt.bind (some token.literal) value).text.toList ++ rest =
      "let".toList ++ ' ' :: (token.literal.toList ++ ' ' :: ("=".toList ++ ' ' ::
        (value.text.toList ++ [';'])) ++ rest) := by
    intro rest
    simp [Stmt.text, Printer.name]
  refine of_word hword htext (by decide) fun cursor rest _ hkind hat => ?_
  simp only [List.append_assoc, List.cons_append, List.nil_append] at hat
  obtain ⟨hidentifier, hliteral, hequals⟩ := hat.piece hname (.cons (by decide) _)
  obtain ⟨hassign, -, hvalue⟩ := (at_space.mp hequals).piece hmark (.cons (by decide) _)
  obtain ⟨middle, hmiddle, hreads⟩ :=
    hv.reads .lowest _ _ (by decide) (ends_semiColon rest) (at_space.mp hvalue)
  obtain ⟨hlast, hadvance⟩ := hmiddle.mark .semiColon (by decide)
  have hstatement := Reads.statement_let hkind hidentifier hassign hreads hne hlast
  rw [hliteral, String.ofList_toList] at hstatement
  exact ⟨middle.advance, hadvance, hstatement⟩

theorem giveBack (hv : Rereads value) : StmtRereads (.giveBack value) := by
  have hword : Piece .returnWord "return".toList := piece_of_word (by decide)
  have htext : ∀ rest, (Stmt.giveBack value).text.toList ++ rest =
      "return".toList ++ ' ' :: (value.text.toList ++ [';'] ++ rest) := by
    intro rest
    simp [Stmt.text]
  refine of_word hword htext (by decide) fun cursor rest _ hkind hat => ?_
  simp only [List.append_assoc, List.cons_append, List.nil_append] at hat
  obtain ⟨middle, hmiddle, hreads⟩ :=
    hv.reads .lowest _ _ (by decide) (ends_semiColon rest) hat
  obtain ⟨hlast, hadvance⟩ := hmiddle.mark .semiColon (by decide)
  exact ⟨middle.advance, hadvance, .statement_return hkind hreads hlast⟩

-- A condition in its parentheses and the block behind it.
theorem condition_reread (hc : Rereads condition) (hb : ∀ stmt ∈ body, StmtRereads stmt)
    {cursor : Cursor} {rest : List Char}
    (hat : cursor.At ('(' :: (condition.text.toList ++ ')' :: ' ' ::
      ((Printer.block (stmtTexts body)).toList ++ rest))))
    {bound : Nat} (hbound : cursor.room ≤ bound) :
    ∃ middle last : Cursor, last.At rest ∧ last.room ≤ bound ∧
      Reads (Parser.parenthesised (expression .lowest)) cursor condition middle ∧
        Reads (Parser.block bound statement) middle body last := by
  obtain ⟨hopen, hinside⟩ := hat.mark .openParen (by decide)
  obtain ⟨middle, hmiddle, hreads⟩ :=
    hc.reads .lowest _ _ (by decide) (ends_closeParen _) hinside
  obtain ⟨hclose, hadvance⟩ := hmiddle.mark .closeParen (by decide)
  have hwithin := hreads.within (expression_stays .lowest)
  have hle := (middle.advance_within.trans (hwithin.trans cursor.advance_within)).room_le
  obtain ⟨hbrace, last, hlast, hblock⟩ :=
    block_reread hb (at_space.mp hadvance) (hle.trans hbound)
  have hreads' : Reads (Parser.block bound statement) middle.advance body last :=
    .block hbrace hblock
  have hroom := (hreads'.within (Parser.block_stays bound statement_stays)).room_le
  exact ⟨middle.advance, last, hlast, by omega, .parenthesised hopen hreads hclose, hreads'⟩

theorem ifThen (hc : Rereads condition) (hb : ∀ stmt ∈ body, StmtRereads stmt) :
    StmtRereads (.ifThen condition body) := by
  have hword : Piece .ifWord "if".toList := piece_of_word (by decide)
  have htext : ∀ rest, (Stmt.ifThen condition body).text.toList ++ rest =
      "if".toList ++ ' ' :: ('(' :: (condition.text.toList ++ ')' :: ' ' ::
        (Printer.block (stmtTexts body)).toList) ++ rest) := by
    intro rest
    simp [Stmt.text]
  refine of_word hword htext (by decide) fun cursor rest hrest hkind hat => ?_
  simp only [List.append_assoc, List.cons_append] at hat
  obtain ⟨middle, last, hlast, -, hcondition, hblock⟩ :=
    condition_reread hc hb hat cursor.advance_within.room_le
  exact ⟨last, hlast, .statement_ifThen hkind hcondition hblock (hrest last hlast)⟩

theorem whileLoop (hc : Rereads condition) (hb : ∀ stmt ∈ body, StmtRereads stmt) :
    StmtRereads (.whileLoop condition body) := by
  have hword : Piece .whileWord "while".toList := piece_of_word (by decide)
  have htext : ∀ rest, (Stmt.whileLoop condition body).text.toList ++ rest =
      "while".toList ++ ' ' :: ('(' :: (condition.text.toList ++ ')' :: ' ' ::
        (Printer.block (stmtTexts body)).toList) ++ rest) := by
    intro rest
    simp [Stmt.text]
  refine of_word hword htext (by decide) fun cursor rest _ hkind hat => ?_
  simp only [List.append_assoc, List.cons_append] at hat
  obtain ⟨middle, last, hlast, -, hcondition, hblock⟩ :=
    condition_reread hc hb hat cursor.advance_within.room_le
  exact ⟨last, hlast, .statement_while hkind hcondition hblock⟩

theorem ifElse (hc : Rereads condition) (hb : ∀ stmt ∈ body, StmtRereads stmt)
    (ha : ∀ stmt ∈ alternative, StmtRereads stmt) :
    StmtRereads (.ifElse condition body alternative) := by
  have hword : Piece .ifWord "if".toList := piece_of_word (by decide)
  have hother : Piece .elseWord "else".toList := piece_of_word (by decide)
  have htext : ∀ rest, (Stmt.ifElse condition body alternative).text.toList ++ rest =
      "if".toList ++ ' ' :: ('(' :: (condition.text.toList ++ ')' :: ' ' ::
        ((Printer.block (stmtTexts body)).toList ++ ' ' :: ("else".toList ++ ' ' ::
          (Printer.block (stmtTexts alternative)).toList))) ++ rest) := by
    intro rest
    simp [Stmt.text]
  refine of_word hword htext (by decide) fun cursor rest _ hkind hat => ?_
  simp only [List.append_assoc, List.cons_append] at hat
  obtain ⟨middle, behind, hbehind, hle, hcondition, hblock⟩ :=
    condition_reread hc hb hat cursor.advance_within.room_le
  obtain ⟨helse, -, hadvance⟩ := (at_space.mp hbehind).piece hother (.cons (by decide) _)
  obtain ⟨hbrace, last, hlast, hreads⟩ :=
    block_reread ha (at_space.mp hadvance) (behind.advance_within.room_le.trans hle)
  exact ⟨last, hlast, .statement_ifElse hkind hcondition hblock helse (.block hbrace hreads)⟩

theorem block (hb : ∀ stmt ∈ body, StmtRereads stmt) : StmtRereads (.block body) where
  first := by
    intro cursor rest hat
    rw [(block_reread hb hat (Nat.le_refl _)).1]
    decide
  reads := by
    intro cursor rest _ hat
    obtain ⟨hbrace, last, hlast, hreads⟩ := block_reread hb hat (Nat.le_refl _)
    exact ⟨last, hlast, .statement_block hbrace hreads⟩

theorem define {token : Token} (h : token.Lexed) (hk : token.kind = .identifier)
    {names : List (Option String)}
    (hnames : ∀ name ∈ names, ItemRereads Parser.identifier Printer.name .closeParen name)
    (hb : ∀ stmt ∈ body, StmtRereads stmt) : StmtRereads (.define token.literal names body) := by
  have hword : Piece .fnWord "fn".toList := piece_of_word (by decide)
  have hname := (piece_of_identifier h hk).1
  have htext : ∀ rest, (Stmt.define token.literal names body).text.toList ++ rest =
      "fn".toList ++ ' ' :: (token.literal.toList ++ ((Printer.parameters names).toList ++
        ' ' :: (Printer.block (stmtTexts body)).toList) ++ rest) := by
    intro rest
    simp [Stmt.text]
  refine of_word hword htext (by decide) fun cursor rest _ hkind hat => ?_
  simp only [List.append_assoc, List.cons_append] at hat
  obtain ⟨hidentifier, hliteral, hfunction⟩ := hat.piece hname (breaks_parameters _ _)
  have hle := (cursor.advance.advance_within.trans cursor.advance_within).room_le
  obtain ⟨hopen, middle, last, hlast, hparameters, hblock⟩ :=
    function_reread hnames hb hfunction hle
  have hstatement := Reads.statement_definition hkind hidentifier hopen hparameters hblock
  rw [hliteral, String.ofList_toList] at hstatement
  exact ⟨last, hlast, hstatement⟩

theorem expression (hv : Rereads value) : StmtRereads (.expression value) := by
  have htext : ∀ rest, (Stmt.expression value).text.toList ++ rest =
      value.text.toList ++ ';' :: rest := by
    intro rest
    simp [Stmt.text]
  refine ⟨fun cursor rest hat => ?_, fun cursor rest _ hat => ?_⟩
  · rw [htext] at hat
    have hbegins := (hv.first cursor _ (ends_semiColon rest).1 hat).1
    refine ⟨?_, ?_, ?_⟩ <;> intro hkind <;> simp [hkind, Acceptance.beginsExpression] at hbegins
  · rw [htext] at hat
    obtain ⟨hbegins, hfn⟩ := hv.first cursor _ (ends_semiColon rest).1 hat
    obtain ⟨middle, hmiddle, hreads⟩ :=
      hv.reads .lowest _ _ (by decide) (ends_semiColon rest) hat
    obtain ⟨hlast, hadvance⟩ := hmiddle.mark .semiColon (by decide)
    refine ⟨middle.advance, hadvance, .statement_expression ?_ ?_ hreads hlast⟩
    · exact Acceptance.beginsStatement_of_beginsExpression hbegins
    · intro hkind
      rw [hfn hkind]
      decide

end StmtRereads

-- A token whose text is found again.
def Found (token : Token) : Prop := token.Lexed ∧ (token.kind = .string → token.Inner)

-- A node that is written so that it is read again.
def Printable (node : Node) : Prop :=
  node.isWhole ∧ node.isFloatBetween (-4) 16 ∧ node.isUnassigned

def nodes : Phrase → List Node
  | .statements body | .block body => stmtNodes body
  | .statement stmt => stmt.nodes
  | .names _ | .furtherNames _ => []
  | .expressions exprs | .furtherExpressions exprs => exprNodes exprs
  | .expression _ expr => expr.nodes

-- What there is to show of each part of a tree.
def Phrase.Reread : Phrase → Prop
  | .statements body | .block body => ∀ stmt ∈ body, StmtRereads stmt
  | .statement stmt => StmtRereads stmt
  | .names names | .furtherNames names =>
    ∀ name ∈ names, ItemRereads Parser.identifier Printer.name .closeParen name
  | .expressions exprs | .furtherExpressions exprs => ∀ expr ∈ exprs, Rereads expr
  | .expression _ expr => Rereads expr

theorem reread {phrase : Phrase} {w : List Token} (h : Spelled phrase w)
    (hfound : ∀ token ∈ w, Found token) (hnodes : ∀ node ∈ nodes phrase, Printable node) :
    Phrase.Reread phrase := by
  induction h with
  | noStatements => nofun
  | statements _ _ ihs ihr =>
      simp only [nodes, stmtNodes, List.forall_mem_append] at hfound hnodes
      exact List.forall_mem_cons.mpr ⟨ihs hfound.1 hnodes.1, ihr hfound.2 hnodes.2⟩
  | bind _ hname _ _ hne _ ih =>
      simp only [nodes, Stmt.nodes, List.cons_append, List.forall_mem_cons,
        List.forall_mem_append] at hfound hnodes
      exact .bind hfound.2.1.1 hname (ih hfound.2.2.2.1 hnodes.2) hne
  | giveBack _ _ _ ih =>
      simp only [nodes, Stmt.nodes, List.cons_append, List.forall_mem_cons,
        List.forall_mem_append] at hfound hnodes
      exact .giveBack (ih hfound.2.1 hnodes.2)
  | ifThen _ _ _ _ _ ihc ihb =>
      simp only [nodes, Stmt.nodes, List.cons_append, List.forall_mem_cons,
        List.forall_mem_append] at hfound hnodes
      exact .ifThen (ihc hfound.2.2.1 hnodes.2.1) (ihb hfound.2.2.2.2 hnodes.2.2)
  | ifElse _ _ _ _ _ _ _ ihc ihb iha =>
      simp only [nodes, Stmt.nodes, List.cons_append, List.forall_mem_cons,
        List.forall_mem_append] at hfound hnodes
      exact .ifElse (ihc hfound.2.2.1 hnodes.2.1.1) (ihb hfound.2.2.2.2.1 hnodes.2.1.2)
        (iha hfound.2.2.2.2.2.2 hnodes.2.2)
  | whileLoop _ _ _ _ _ ihc ihb =>
      simp only [nodes, Stmt.nodes, List.cons_append, List.forall_mem_cons,
        List.forall_mem_append] at hfound hnodes
      exact .whileLoop (ihc hfound.2.2.1 hnodes.2.1) (ihb hfound.2.2.2.2 hnodes.2.2)
  | blockStatement _ ih =>
      simp only [nodes, Stmt.nodes, List.forall_mem_cons] at hnodes
      exact .block (ih hfound hnodes.2)
  | define _ hname _ _ _ _ ihn ihb =>
      simp only [nodes, Stmt.nodes, List.cons_append, List.forall_mem_cons,
        List.forall_mem_append] at hfound hnodes
      exact .define hfound.2.1.1 hname (ihn hfound.2.2.2.1 nofun)
        (ihb hfound.2.2.2.2.2 hnodes.2)
  | expressionStatement _ _ ih =>
      simp only [nodes, Stmt.nodes, List.forall_mem_cons, List.forall_mem_append] at hfound hnodes
      exact .expression (ih hfound.1 hnodes.2)
  | block _ _ _ ih =>
      simp only [List.cons_append, List.forall_mem_cons, List.forall_mem_append] at hfound
      exact ih hfound.2.1 hnodes
  | noNames => nofun
  | names hname _ ih =>
      simp only [List.forall_mem_cons] at hfound
      exact List.forall_mem_cons.mpr ⟨name_item hfound.1.1 hname, ih hfound.2 hnodes⟩
  | noFurtherNames => nofun
  | furtherNames _ hname _ ih =>
      simp only [List.forall_mem_cons] at hfound
      exact List.forall_mem_cons.mpr ⟨name_item hfound.2.1.1 hname, ih hfound.2.2 hnodes⟩
  | noExpressions => nofun
  | expressions _ _ ihe ihr =>
      simp only [nodes, exprNodes, List.forall_mem_append] at hfound hnodes
      exact List.forall_mem_cons.mpr ⟨ihe hfound.1 hnodes.1, ihr hfound.2 hnodes.2⟩
  | noFurtherExpressions => nofun
  | furtherExpressions _ _ _ ihe ihr =>
      simp only [nodes, exprNodes, List.cons_append, List.forall_mem_cons,
        List.forall_mem_append] at hfound hnodes
      exact List.forall_mem_cons.mpr ⟨ihe hfound.2.1 hnodes.1, ihr hfound.2.2 hnodes.2⟩
  | missing =>
      obtain ⟨⟨hwhole, -⟩, -⟩ := List.forall_mem_cons.mp hnodes
      contradiction
  | identifier hk => exact .identifier (hfound _ List.mem_cons_self).1 hk
  | integer hk hread => exact .integer (hfound _ List.mem_cons_self).1 hk hread
  | float hk hread =>
      obtain ⟨bits, hbits, hfloat⟩ := (hfound _ List.mem_cons_self).1.float_read hk
      obtain rfl := Option.some.inj (hfloat.symm.trans hread)
      obtain ⟨⟨-, hbetween, -⟩, -⟩ := List.forall_mem_cons.mp hnodes
      exact .float hbits (of_decide_eq_true hbetween)
  | string hk => exact .string ((hfound _ List.mem_cons_self).2 hk) hk
  | trueWord _ => exact .boolean true
  | falseWord _ => exact .boolean false
  | array _ _ _ ih =>
      simp only [nodes, Expr.nodes, List.cons_append, List.forall_mem_cons,
        List.forall_mem_append] at hfound hnodes
      exact .array (ih hfound.2.1 hnodes.2)
  | binary _ _ _ ihl ihr =>
      simp only [nodes, Expr.nodes, List.forall_mem_cons, List.forall_mem_append] at hfound hnodes
      obtain ⟨⟨-, -, hunassigned⟩, hl, hr⟩ := hnodes
      exact .binary (ihl hfound.1 hl) (ihr hfound.2.2 hr)
        (by simpa [Node.isUnassigned] using hunassigned)
  | unary _ _ ih =>
      simp only [nodes, Expr.nodes, List.forall_mem_cons] at hfound hnodes
      exact .unary (ih hfound.2 hnodes.2)
  | call _ _ _ _ ihc iha =>
      simp only [nodes, Expr.nodes, List.cons_append, List.forall_mem_cons,
        List.forall_mem_append] at hfound hnodes
      obtain ⟨⟨-, -, hunassigned⟩, hc, ha⟩ := hnodes
      exact .call (ihc hfound.1 hc) (by simpa [Node.isUnassigned] using hunassigned)
        (iha hfound.2.2.1 ha)
  | index _ _ _ _ iha ihp =>
      simp only [nodes, Expr.nodes, List.cons_append, List.forall_mem_cons,
        List.forall_mem_append] at hfound hnodes
      obtain ⟨⟨-, -, hunassigned⟩, ha, hp⟩ := hnodes
      exact .index (iha hfound.1 ha) (by simpa [Node.isUnassigned] using hunassigned)
        (ihp hfound.2.2.1 hp)
  | assignment hname _ _ ih =>
      simp only [nodes, Expr.nodes, List.forall_mem_cons] at hfound hnodes
      exact .assignment hfound.1.1 hname (ih hfound.2.2 hnodes.2)
  | function _ _ _ _ _ ihn ihb =>
      simp only [nodes, Expr.nodes, List.cons_append, List.forall_mem_cons,
        List.forall_mem_append] at hfound hnodes
      exact .function (ihn hfound.2.2.1 nofun) (ihb hfound.2.2.2.2 hnodes.2)
  | grouped _ _ _ ih =>
      simp only [List.cons_append, List.forall_mem_cons, List.forall_mem_append] at hfound
      exact ih hfound.2.1 hnodes

-- A string that is not closed ends the source, and no program does.
theorem found_of_clean {source : String} (h : (parse source).diagnostics = []) :
    ∀ token ∈ (ofSource source).ahead, Found token := by
  intro token hmem
  refine ⟨ofSource_lexed source token hmem, fun hk => ?_⟩
  obtain hinner | hlast := tokensFrom_inner 0 0 source.toList token hmem
  · exact hinner
  · obtain ⟨-, hnil⟩ | ⟨front, last, hahead, hend⟩ := (parse_spelled h).ends
    · rw [hnil] at hmem
      contradiction
    · have hsame : last = token := by
        change (ofSource source).ahead.getLast? = some token at hlast
        rw [hahead, List.getLast?_concat] at hlast
        exact Option.some.inj hlast
      rw [hsame, hk] at hend
      simp at hend

theorem parse_programText_of_reread {program : Program}
    (h : ∀ stmt ∈ program, StmtRereads stmt) : parse (programText program) = ⟨program, []⟩ := by
  have hat : (ofSource (programText program)).At (spaced program ++ []) := by
    rw [← at_sequence, at_space, List.append_nil]
    exact ofSource_at _
  have hend : Begins (· = .eof) [] := by
    intro cursor hcursor
    simp [Cursor.current, hcursor.eof, Cursor.finish]
  obtain ⟨middle, -, hreads⟩ := statements_reread h (.inl rfl) hend hat (Nat.le_refl _)
  rw [Reads, ← Cursor.parse_eq (Nat.le_refl _)] at hreads
  rw [parse, hreads]

end Rereading

-- Printing a program and reading it again gives it back, if nothing is missing in it, its floats
-- are written without a power of ten, and no assignment stands where its text would take in what
-- follows it.
theorem parse_programText (source : String) (h : (parse source).diagnostics = [])
    (hnodes : ∀ node ∈ (parse source).program.nodes, node.isWhole ∧
      node.isFloatBetween (-4) 16 ∧ node.isUnassigned) :
    (parse (programText (parse source).program)).diagnostics = [] ∧
      (parse (programText (parse source).program)).program = (parse source).program := by
  have hreread : ∀ stmt ∈ (parse source).program, StmtRereads stmt :=
    reread (parse_spelled h) (found_of_clean h) hnodes
  rw [parse_programText_of_reread hreread]
  exact ⟨rfl, rfl⟩

theorem parse_programText_definition :
    let source := "fn f(a) \x7b if (a[0] < -2.5) \x7b return [a, \"x\"]; \x7d else " ++
      "\x7b b = !(a); \x7d \x7d f(3)(1);"
    (parse source).diagnostics = [] ∧
      (∀ node ∈ (parse source).program.nodes, node.isWhole ∧ node.isFloatBetween (-4) 16 ∧
        node.isUnassigned) ∧
      (parse (programText (parse source).program)).diagnostics = [] ∧
        (parse (programText (parse source).program)).program = (parse source).program := by
  intro source
  have hclean : (parse source).diagnostics = [] := by decide +kernel
  have hnodes : ∀ node ∈ (parse source).program.nodes, node.isWhole ∧
      node.isFloatBetween (-4) 16 ∧ node.isUnassigned := by decide +kernel
  exact ⟨hclean, hnodes, parse_programText source hclean hnodes⟩

-- Between 1e-5 and 1e-4 floats are written with a power of ten, which is no token.
theorem not_parse_programText_tenthThousandths :
    ¬ ∀ source : String, (parse source).diagnostics = [] →
      (∀ node ∈ (parse source).program.nodes, node.isWhole ∧ node.isFloatBetween (-5) 16 ∧
        node.isUnassigned) →
      (parse (programText (parse source).program)).diagnostics = [] ∧
        (parse (programText (parse source).program)).program = (parse source).program := by
  intro h
  have hclean : (parse "0.00005;").diagnostics = [] := by decide +kernel
  have hnodes : ∀ node ∈ (parse "0.00005;").program.nodes, node.isWhole ∧
      node.isFloatBetween (-5) 16 ∧ node.isUnassigned := by decide +kernel
  have hagain : (parse (programText (parse "0.00005;").program)).diagnostics ≠ [] := by
    decide +kernel
  exact hagain (h _ hclean hnodes).1

end Capuchin
