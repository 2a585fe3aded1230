import Capuchin.Proofs.Syntax.Reprinting
import Capuchin.Proofs.Token.Literals
import Mathlib

-- The text of a program has the tokens of its source, apart from parentheses.
namespace Capuchin

open Lexer Rereading

namespace Token

def isParenthesis (token : Token) : Bool :=
  token.kind = .openParen || token.kind = .closeParen

-- What a token says: an integer its value, any other token its literal.
def content (token : Token) : TokenKind × (Nat ⊕ String) :=
  (token.kind, if token.kind = .integer then .inl token.decimal else .inr token.literal)

end Token

def Node.isFloat : Node → Bool
  | .expr (.float _) => true
  | _ => false

-- What tokens say, apart from parentheses.
def contents (tokens : List Token) : List (TokenKind × (Nat ⊕ String)) :=
  (tokens.filter fun token => !token.isParenthesis).map Token.content

section Contents

variable {token : Token} {u v : List Token}

@[simp] theorem contents_append (u v : List Token) :
    contents (u ++ v) = contents u ++ contents v := by
  simp [contents]

theorem contents_cons (token : Token) (w : List Token) :
    contents (token :: w) = contents [token] ++ contents w :=
  contents_append [token] w

-- Where tokens start does not count.
theorem contents_congr (h : u.map Token.shape = v.map Token.shape) : contents u = contents v := by
  have hshape : ∀ tokens, contents tokens =
      contents ((tokens.map Token.shape).map fun shape => ⟨shape.1, 0, shape.2⟩) := by
    intro tokens
    rw [contents, contents, List.map_map, List.filter_map, List.map_map]
    rfl
  rw [hshape u, hshape v, h]

theorem contents_start (token : Token) :
    contents [⟨token.kind, 0, token.literal⟩] = contents [token] :=
  contents_congr rfl

theorem contents_openParen (h : token.kind = .openParen) : contents [token] = [] := by
  simp [contents, Token.isParenthesis, h]

theorem contents_closeParen (h : token.kind = .closeParen) : contents [token] = [] := by
  simp [contents, Token.isParenthesis, h]

end Contents

namespace Lexer

def said (text : List Char) : List (TokenKind × (Nat ⊕ String)) := contents (tokensFrom 0 0 text)

theorem said_blank {c : Char} {rest : List Char} (h : Text.isBlank c) :
    said (c :: rest) = said rest :=
  contents_congr (shapes_blank h)

theorem said_of_shapes {text rest : List Char} {kind : TokenKind} {literal : String}
    (h : shapes text = (kind, literal) :: shapes rest) :
    said text = contents [⟨kind, 0, literal⟩] ++ said rest := by
  rw [said, said, ← contents_append]
  exact contents_congr h

end Lexer

-- In front of all that breaks, a text says what some tokens do, if these are found again.
def Tells (text : List Char) (w : List Token) : Prop :=
  (∀ token ∈ w, Found token) → ∀ rest, Breaks rest → said (text ++ rest) = contents w ++ said rest

namespace Tells

variable {text more : List Char} {u v w : List Token} {token left right : Token}
  {kind : TokenKind}

theorem nil : Tells [] [] := fun _ _ _ => rfl

theorem append (h : Tells text u) (hb : Breaks more) (hm : Tells more v) :
    Tells (text ++ more) (u ++ v) := by
  intro hfound rest hrest
  rw [List.forall_mem_append] at hfound
  have hbreaks : Breaks (more ++ rest) := by
    cases more with
    | nil => exact hrest
    | cons c more => exact hb
  rw [List.append_assoc, h hfound.1 _ hbreaks, hm hfound.2 rest hrest, contents_append,
    List.append_assoc]

theorem space (h : Tells text w) : Tells (' ' :: text) w := by
  intro hfound rest hrest
  rw [List.cons_append, said_blank (by decide)]
  exact h hfound rest hrest

-- Two texts with a space between them.
theorem apart (h : Tells text u) (hm : Tells more v) : Tells (text ++ ' ' :: more) (u ++ v) :=
  h.append (.cons (by decide) _) hm.space

-- A token says itself.
theorem found (hk : token.kind = kind) (hne : kind ≠ .illegal) :
    Tells token.literal.toList [token] := by
  subst hk
  intro hfound rest hrest
  obtain ⟨hlexed, hinner⟩ := hfound token List.mem_cons_self
  rw [said_of_shapes (shapes_piece (piece_of_lexed hlexed hinner hne) hrest),
    String.ofList_toList, contents_start]

theorem word (text : String) (hk : token.kind = kind)
    (hmem : (.word text, kind) ∈ Pattern.table) :
    Tells text.toList [token] := by
  intro hfound rest hrest
  subst hk
  have hliteral := (hfound token List.mem_cons_self).1.literal_of_word hmem
  rw [said_of_shapes (shapes_piece (piece_of_word hmem) hrest), String.ofList_toList, ← hliteral,
    contents_start]

-- A mark has no need of a break behind it.
theorem mark (c : Char) (hk : token.kind = kind) (hmem : (c, kind) ∈ marks) (h : Tells text w) :
    Tells (c :: text) (token :: w) := by
  have htable : ∀ mark ∈ marks,
      (Pattern.word (String.ofList [mark.1]), mark.2) ∈ Pattern.table := by decide
  intro hfound rest hrest
  rw [List.forall_mem_cons] at hfound
  subst hk
  have hliteral := hfound.1.1.literal_of_word (htable _ hmem)
  rw [List.cons_append, said_of_shapes (shapes_mark hmem _), h hfound.2 rest hrest,
    contents_cons token w, ← hliteral, contents_start, List.append_assoc]

-- Parentheses say nothing.
theorem enclosed (h : Tells text w) : Tells ('(' :: (text ++ [')'])) w := by
  intro hfound rest hrest
  have hopen : said ('(' :: (text ++ ')' :: rest)) = said (text ++ ')' :: rest) := by
    rw [said_of_shapes (shapes_mark (by decide : ('(', .openParen) ∈ marks) _)]
    rfl
  have hclose : said (')' :: rest) = said rest := by
    rw [said_of_shapes (shapes_mark (by decide : (')', .closeParen) ∈ marks) _)]
    rfl
  rw [List.cons_append, List.append_assoc, List.singleton_append, hopen,
    h hfound _ (.cons (by decide) _), hclose]

theorem ungrouped (hleft : left.kind = .openParen) (hright : right.kind = .closeParen)
    (h : Tells text w) : Tells text (left :: w ++ [right]) := by
  intro hfound rest hrest
  simp only [List.cons_append, List.forall_mem_cons, List.forall_mem_append] at hfound
  rw [h hfound.2.1 rest hrest, contents_append, contents_cons, contents_openParen hleft,
    contents_closeParen hright, List.nil_append, List.append_nil]

-- A semicolon at the end.
theorem ended (h : Tells text w) (hk : token.kind = .semiColon) :
    Tells (text ++ [';']) (w ++ [token]) :=
  h.append (.cons (by decide) _) (.mark ';' hk (by decide) .nil)

-- What stands in parentheses of the source, with a block behind it.
theorem headed (hleft : left.kind = .openParen) (h : Tells text w)
    (hright : right.kind = .closeParen) (hb : Tells more v) :
    Tells ('(' :: (text ++ ')' :: ' ' :: more)) (left :: (w ++ right :: v)) :=
  .mark '(' hleft (by decide) (h.append (.cons (by decide) _)
    (.mark ')' hright (by decide) hb.space))

-- An operator in front of an operand.
theorem unary {op : UnaryOp} (hop : UnaryOp.ofToken? token.kind = some op) (h : Tells text w)
    (hv : (∀ token ∈ w, Found token) → Visible text) :
    Tells (op.symbol.toList ++ text) (token :: w) := by
  intro hfound rest hrest
  rw [List.forall_mem_cons] at hfound
  obtain ⟨c, kind, hsymbol, hs, hkind⟩ := symbol_of_unary op
  obtain ⟨d, more, rfl, hvisible⟩ := hv hfound.2
  have hsame : kind = token.kind :=
    Pattern.kind_eq (UnaryOp.mem_table hkind) (UnaryOp.mem_table hop)
  have hliteral := hfound.1.1.literal_of_word (UnaryOp.mem_table hop)
  subst hsame
  rw [← String.toList_inj, hsymbol] at hliteral
  rw [hsymbol, List.append_assoc, List.singleton_append,
    said_of_shapes (shapes_symbol hs (by simpa using hvisible)), ← hliteral, String.ofList_toList,
    contents_start, h hfound.2 rest hrest, contents_cons token w, List.append_assoc]

end Tells

-- The text of an expression says what its tokens do, and an operator in front of it stays apart.
structure Uttered (expr : Expr) (w : List Token) : Prop where
  tells : Tells expr.text.toList w
  visible : (∀ token ∈ w, Found token) → Visible expr.text.toList

namespace Uttered

variable {expr whole : Expr} {token : Token} {u v : List Token} {more : List Char}

-- An expression whose text goes on behind another one's.
theorem append (h : Uttered expr u) (hb : Breaks more) (hm : Tells more v)
    (htext : whole.text.toList = expr.text.toList ++ more) : Uttered whole (u ++ v) := by
  refine ⟨?_, fun hfound => ?_⟩
  · rw [htext]
    exact h.tells.append hb hm
  · rw [htext]
    exact (h.visible (List.forall_mem_append.mp hfound).1).append more

theorem identifier (hk : token.kind = .identifier) :
    Uttered (.identifier token.literal) [token] := by
  refine ⟨Tells.found hk (by decide), fun hfound => ?_⟩
  obtain ⟨-, c, more, hliteral, hstart⟩ :=
    piece_of_identifier (hfound token List.mem_cons_self).1 hk
  exact ⟨c, more, hliteral, Rereads.isIdentifierStart_visible hstart⟩

theorem string (hk : token.kind = .string) : Uttered (.string token.literal) [token] := by
  refine ⟨Tells.found hk (by decide), fun hfound => ?_⟩
  obtain ⟨-, hquote⟩ := piece_of_string ((hfound token List.mem_cons_self).2 hk) hk
  obtain ⟨more, hliteral⟩ := List.head?_eq_some_iff.mp hquote
  exact ⟨'"', more, hliteral, by decide⟩

-- The text of an integer has its value, if not its literal.
theorem integer {value : Int32} (hk : token.kind = .integer)
    (hread : Integer.read? token.literal = some value) : Uttered (.integer value) [token] := by
  have htext : token.Lexed →
      (Expr.integer value).text.toList = Nat.toDigits 10 token.decimal := by
    intro hlexed
    rw [hlexed.integer_read hk] at hread
    split at hread
    · rename_i hle
      obtain rfl := Option.some.inj hread
      rw [Expr.text, Integer.text_ofInt hle, String.toList_ofList]
    · contradiction
  have hdigits := isDigit_toDigits token.decimal
  refine ⟨fun hfound rest hrest => ?_, fun hfound => ?_⟩
  · have hsame : contents [⟨.integer, 0, String.ofList (Nat.toDigits 10 token.decimal)⟩] =
        contents [token] := by
      simp [contents, Token.isParenthesis, Token.content, hk, Token.decimal]
    rw [htext (hfound token List.mem_cons_self).1,
      said_of_shapes (shapes_piece (piece_of_digits Nat.toDigits_ne_nil hdigits) hrest), hsame]
  · rw [htext (hfound token List.mem_cons_self).1]
    obtain ⟨c, more, hcons⟩ := List.exists_cons_of_ne_nil
      (Nat.toDigits_ne_nil (b := 10) (n := token.decimal))
    exact ⟨c, more, hcons, Rereads.isDigit_visible (hdigits c (by simp [hcons]))⟩

end Uttered

-- What there is to show of the text of each part of a tree.
def Phrase.Said : Phrase → List Token → Prop
  | .statements body, w => Tells (spaced body) w
  | .statement stmt, w => Tells stmt.text.toList w
  | .block body, w => Tells (Printer.block (stmtTexts body)).toList w
  | .names parameters, w => Tells (Printer.commaSeparated (parameters.map Printer.name)).toList w
  | .furtherNames parameters, w => Tells (further Printer.name parameters) w
  | .expressions exprs, w => Tells (Printer.commaSeparated (exprs.map Expr.text)).toList w
  | .furtherExpressions exprs, w => Tells (further Expr.text exprs) w
  | .expression _ expr, w => Uttered expr w

theorem breaks_further {spell : α → String} (values : List α) : Breaks (further spell values) := by
  cases values <;> simp [Breaks, further, separators]

theorem breaks_spaced (body : List Stmt) : Breaks (spaced body) := by
  cases body <;> simp [Breaks, spaced, separators]

theorem Tells.sequence {body : List Stmt} {w : List Token} (h : Tells (spaced body) w) :
    Tells (' ' :: (Printer.sequence (stmtTexts body)).toList) w := by
  cases body with
  | nil => exact h.space
  | cons stmt body => rwa [toList_sequence_cons]

attribute [local simp] Expr.text Stmt.text

namespace Spelled

theorem said {phrase : Phrase} {w : List Token} (h : Spelled phrase w)
    (hnodes : ∀ node ∈ nodes phrase, node.isWhole ∧ node.isFloat = false) : phrase.Said w := by
  induction h with
  | noStatements => exact .nil
  | statements _ _ ihs ihr =>
      simp only [nodes, stmtNodes, List.forall_mem_append] at hnodes
      exact ((ihs hnodes.1).append (breaks_spaced _) (ihr hnodes.2)).space
  | bind hword hname hmark _ _ hlast ih =>
      have hvalue := (ih (List.forall_mem_cons.mp hnodes).2).tells
      have hassign := (Tells.word "=" hmark (by decide)).apart (hvalue.ended hlast)
      have hname := (Tells.found hname (by decide)).apart hassign
      simpa [Phrase.Said, Printer.name] using (Tells.word "let" hword (by decide)).apart hname
  | giveBack hword _ hlast ih =>
      have hvalue := (ih (List.forall_mem_cons.mp hnodes).2).tells
      simpa [Phrase.Said] using (Tells.word "return" hword (by decide)).apart (hvalue.ended hlast)
  | ifThen hword hleft _ hright _ ihc ihb =>
      simp only [nodes, Stmt.nodes, List.forall_mem_cons, List.forall_mem_append] at hnodes
      have hhead := Tells.headed hleft (ihc hnodes.2.1).tells hright (ihb hnodes.2.2)
      simpa [Phrase.Said] using (Tells.word "if" hword (by decide)).apart hhead
  | ifElse hword hleft _ hright _ hother _ ihc ihb iha =>
      simp only [nodes, Stmt.nodes, List.forall_mem_cons, List.forall_mem_append] at hnodes
      have helse := (Tells.word "else" hother (by decide)).apart (iha hnodes.2.2)
      have hbody := (ihb hnodes.2.1.2).apart helse
      have hhead := Tells.headed hleft (ihc hnodes.2.1.1).tells hright hbody
      simpa [Phrase.Said] using (Tells.word "if" hword (by decide)).apart hhead
  | whileLoop hword hleft _ hright _ ihc ihb =>
      simp only [nodes, Stmt.nodes, List.forall_mem_cons, List.forall_mem_append] at hnodes
      have hhead := Tells.headed hleft (ihc hnodes.2.1).tells hright (ihb hnodes.2.2)
      simpa [Phrase.Said] using (Tells.word "while" hword (by decide)).apart hhead
  | blockStatement _ ih => exact ih (List.forall_mem_cons.mp hnodes).2
  | define hword hname hleft _ hright _ ihn ihb =>
      have hnames := ihn (List.forall_mem_nil _)
      have hhead := Tells.headed hleft hnames hright (ihb (List.forall_mem_cons.mp hnodes).2)
      have hname := (Tells.found hname (by decide)).append (.cons (by decide) _) hhead
      simpa [Phrase.Said, Printer.parameters] using
        (Tells.word "fn" hword (by decide)).apart hname
  | expressionStatement _ hlast ih =>
      simpa [Phrase.Said] using (ih (List.forall_mem_cons.mp hnodes).2).tells.ended hlast
  | block hleft _ hright ih =>
      have hclose := Tells.mark '\x7d' hright (by decide) .nil
      have hbody := (ih hnodes).sequence.append (.cons (by decide) _) hclose.space
      simpa [Phrase.Said, Printer.block] using Tells.mark '\x7b' hleft (by decide) hbody
  | noNames => exact .nil
  | names hname _ ih =>
      rw [Phrase.Said, toList_commaSeparated_cons]
      have hrest := ih (List.forall_mem_nil _)
      exact (Tells.found hname (by decide)).append (breaks_further _) hrest
  | noFurtherNames => exact .nil
  | furtherNames hcomma hname _ ih =>
      have hrest := ih (List.forall_mem_nil _)
      have hitem := (Tells.found hname (by decide)).append (breaks_further _) hrest
      exact .mark ',' hcomma (by decide) hitem.space
  | noExpressions => exact .nil
  | expressions _ _ ihe ihr =>
      simp only [nodes, exprNodes, List.forall_mem_append] at hnodes
      rw [Phrase.Said, toList_commaSeparated_cons]
      exact (ihe hnodes.1).tells.append (breaks_further _) (ihr hnodes.2)
  | noFurtherExpressions => exact .nil
  | furtherExpressions hcomma _ _ ihe ihr =>
      simp only [nodes, exprNodes, List.forall_mem_append] at hnodes
      have hitem := (ihe hnodes.1).tells.append (breaks_further _) (ihr hnodes.2)
      exact .mark ',' hcomma (by decide) hitem.space
  | missing =>
      obtain ⟨⟨hwhole, -⟩, -⟩ := List.forall_mem_cons.mp hnodes
      contradiction
  | identifier hk => exact .identifier hk
  | integer hk hread => exact .integer hk hread
  | float _ _ =>
      obtain ⟨⟨-, hfloat⟩, -⟩ := List.forall_mem_cons.mp hnodes
      contradiction
  | string hk => exact .string hk
  | trueWord hk => exact ⟨.word "true" hk (by decide), fun _ => ⟨'t', _, rfl, by decide⟩⟩
  | falseWord hk => exact ⟨.word "false" hk (by decide), fun _ => ⟨'f', _, rfl, by decide⟩⟩
  | array hleft _ hright ih =>
      have helements := ih (List.forall_mem_cons.mp hnodes).2
      have hclose := Tells.mark ']' hright (by decide) .nil
      refine ⟨?_, fun _ => ⟨'[', _, by simp; rfl, by decide⟩⟩
      simpa [exprTexts_eq_map] using Tells.mark '[' hleft (by decide)
        (helements.append (.cons (by decide) _) hclose)
  | binary _ hop _ ihl ihr =>
      simp only [nodes, Expr.nodes, List.forall_mem_cons, List.forall_mem_append] at hnodes
      have hright := (Tells.word _ rfl (BinaryOp.mem_table hop)).apart (ihr hnodes.2.2).tells
      refine ⟨?_, fun _ => ⟨'(', _, by simp; rfl, by decide⟩⟩
      simpa using ((ihl hnodes.2.1).tells.apart hright).enclosed
  | unary hop _ ih =>
      have hoperand := ih (List.forall_mem_cons.mp hnodes).2
      refine ⟨?_, fun _ => ⟨'(', _, by simp; rfl, by decide⟩⟩
      simpa using (hoperand.tells.unary hop hoperand.visible).enclosed
  | call _ hleft _ hright ihc iha =>
      simp only [nodes, Expr.nodes, List.forall_mem_cons, List.forall_mem_append] at hnodes
      have hclose := Tells.mark ')' hright (by decide) .nil
      have harguments := (iha hnodes.2.2).append (.cons (by decide) _) hclose
      have hlist := Tells.mark '(' hleft (by decide) harguments
      exact (ihc hnodes.2.1).append (.cons (by decide) _) hlist
        (by simp [exprTexts_eq_map])
  | index _ hleft _ hright iha ihp =>
      simp only [nodes, Expr.nodes, List.forall_mem_cons, List.forall_mem_append] at hnodes
      have hclose := Tells.mark ']' hright (by decide) .nil
      have hposition := (ihp hnodes.2.2).tells.append (.cons (by decide) _) hclose
      have hlist := Tells.mark '[' hleft (by decide) hposition
      exact (iha hnodes.2.1).append (.cons (by decide) _) hlist (by simp)
  | assignment hname hmark _ ih =>
      have hvalue := (ih (List.forall_mem_cons.mp hnodes).2).tells
      have hassign := (Tells.word "=" hmark (by decide)).apart hvalue
      exact (Uttered.identifier hname).append (.cons (by decide) _) hassign.space
        (by simp)
  | function hword hleft _ hright _ ihn ihb =>
      have hnames := ihn (List.forall_mem_nil _)
      have hhead := Tells.headed hleft hnames hright (ihb (List.forall_mem_cons.mp hnodes).2)
      have hfunction := (Tells.word "fn" hword (by decide)).append
        (.cons (by decide) _) hhead
      refine ⟨?_, fun _ => ⟨'f', _, by simp; rfl, by decide⟩⟩
      simpa [Printer.parameters] using hfunction
  | grouped hleft _ hright ih =>
      obtain ⟨htells, hvisible⟩ := ih hnodes
      refine ⟨htells.ungrouped hleft hright, fun hfound => hvisible ?_⟩
      simp only [List.cons_append, List.forall_mem_cons, List.forall_mem_append] at hfound
      exact hfound.2.1

end Spelled

-- Printing a program without floats and holes keeps what the tokens of its source say, apart from
-- parentheses.
theorem contents_programText (source : String) (h : (parse source).diagnostics = [])
    (hnodes : ∀ node ∈ (parse source).program.nodes, node.isWhole ∧ node.isFloat = false) :
    contents (tokenize (programText (parse source).program)) = contents (tokenize source) := by
  have htells := ((parse_spelled h).said hnodes).sequence
  have hsaid := htells (found_of_clean h) [] Breaks.nil
  have hend : ∀ cursor : Cursor, contents [cursor.finish] = [(.eof, .inr "")] := fun _ => rfl
  rw [List.append_nil, said_blank (by decide)] at hsaid
  rw [tokenize, tokenize, Cursor.toList, Cursor.toList, contents_append, contents_append, hend,
    hend, List.append_left_inj]
  exact hsaid.trans (List.append_nil _)

-- An assignment in front of an operator, called and indexed.
theorem contents_programText_assignment :
    let source := "fn f(a) \x7b (b = a) + 007; (b = a)(-1)[2]; \x7d (c = [!true])[0];"
    (parse source).diagnostics = [] ∧
      (∀ node ∈ (parse source).program.nodes, node.isWhole ∧ node.isFloat = false) ∧
      contents (tokenize (programText (parse source).program)) = contents (tokenize source) := by
  intro source
  have hclean : (parse source).diagnostics = [] := by decide +kernel
  have hnodes : ∀ node ∈ (parse source).program.nodes, node.isWhole ∧ node.isFloat = false := by
    decide +kernel
  exact ⟨hclean, hnodes, contents_programText source hclean hnodes⟩

end Capuchin
