import Capuchin.Proofs.Syntax.Acceptance
import Capuchin.Proofs.Syntax.Appending
import Capuchin.Proofs.Syntax.Reprinting
import Capuchin.Proofs.Token.Literals
import Capuchin.Proofs.Token.Sealing
import Mathlib

-- Operands: what is read alone is read in the same way in front of an operator.
namespace Capuchin

open Grammar (Derives)
open Reader Cursor

-- Argument lists and indices behind a tree, as their tokens spell them.
inductive Trailed : Expr → List Token → Expr → Prop where
  | done : Trailed tree [] tree
  | call : left.kind = .openParen → Spelled (.expressions arguments) v →
      right.kind = .closeParen → Trailed (.call tree arguments) w value →
      Trailed tree (left :: v ++ right :: w) value
  | index : left.kind = .openBracket → Spelled (.expression .whole position) v →
      right.kind = .closeBracket → Trailed (.index tree position) w value →
      Trailed tree (left :: v ++ right :: w) value

namespace Reader

theorem Clean.of_reads {post : List Token → α → Cursor → Prop} {reader : Reader α}
    {cursor rest : Cursor} {value : α} (hc : Clean post reader cursor)
    (h : Reads reader cursor value rest) :
    ∃ used, cursor.ahead = used ++ rest.ahead ∧ post used value rest := by
  rw [Clean, h] at hc
  exact hc rfl

theorem expression_clean (room : Nat) (cursor : Cursor) (_ : cursor.room < room) :
    Clean (Parser.Expressed []) (expression .lowest) cursor :=
  (Parser.sound (cursor.room + 1)).expression .lowest cursor (Nat.lt_succ_self _)

namespace Suffixed

variable {tree value : Expr} {cursor rest later : Cursor}

-- More tokens behind them make no difference.
theorem onto (h : Suffixed tree cursor value rest) (hlater : later.current.kind ≠ .elseWord) :
    Suffixed tree (cursor.onto later) value (rest.onto later) := by
  induction h with
  | done => exact .done
  | @call _ _ _ cursor _ _ hopen ha _ ih =>
      have hc : cursor.ahead ≠ [] := Cursor.ahead_ne_nil (by simp [hopen])
      have hwithin := cursor.advance_within.room_le
      have hle := cursor.room_le_onto later
      have hbound : items (cursor.onto later).room .closeParen (expression .lowest) cursor.advance =
          items cursor.room .closeParen (expression .lowest) cursor.advance :=
        AgreeBelow.items _ (.refl _) (expression_stays _) (Nat.succ_le_succ (hwithin.trans hle))
          (Nat.succ_le_succ hwithin) _ (Nat.lt_succ_self _)
      have hitems := (expression_inner hlater .lowest).items (expression_stays _)
        (cursor.onto later).room (by decide) cursor.advance _ _ (.congr hbound ha) (.inl trivial)
      rw [← Cursor.advance_onto later hc] at hitems
      exact .call (by rwa [Cursor.current_onto later hc]) hitems ih
  | @index _ _ _ cursor middle _ hopen hp hclose _ ih =>
      have hc : cursor.ahead ≠ [] := Cursor.ahead_ne_nil (by simp [hopen])
      have hm : middle.ahead ≠ [] := Cursor.ahead_ne_nil (by simp [hclose])
      have hposition := expression_inner hlater .lowest cursor.advance _ _ hp (.inr hm)
      rw [← Cursor.advance_onto later hc] at hposition
      rw [← Cursor.advance_onto later hm] at ih
      exact .index (by rwa [Cursor.current_onto later hc]) hposition
        (by rwa [Cursor.current_onto later hm]) ih

theorem trailed (h : Suffixed tree cursor value rest) :
    ∃ used, cursor.ahead = used ++ rest.ahead ∧ Trailed tree used value := by
  induction h with
  | done => exact ⟨[], rfl, .done⟩
  | @call _ _ _ cursor _ _ hopen ha _ ih =>
      obtain ⟨w, hw, htrailed⟩ := ih
      obtain ⟨_, hahead, v, last, rfl, hlast, hspelled⟩ := (Parser.expressions_clean
        (expression_clean _) _ (Nat.lt_succ_self _) (by decide) (by decide)).of_reads ha
      refine ⟨cursor.current :: v ++ last :: w, ?_, .call hopen hspelled hlast htrailed⟩
      rw [Cursor.ahead_eq_cons (by simp [hopen]), hahead, hw]
      simp
  | @index _ _ _ cursor middle _ hopen hp hclose _ ih =>
      obtain ⟨w, hw, htrailed⟩ := ih
      obtain ⟨_, hahead, v, last, rfl, hlast, hspelled⟩ := (Parser.enclosed_clean
        (expression_clean _) (Nat.lt_succ_self _) (by decide) (by decide)).of_reads
          (hp.before hclose)
      refine ⟨cursor.current :: v ++ last :: w, ?_, .index hopen hspelled hlast htrailed⟩
      rw [Cursor.ahead_eq_cons (by simp [hopen]), hahead, hw]
      simp

end Suffixed

end Reader

namespace Cursor

-- A cursor with tokens in front of it.
def behind (tokens : List Token) (later : Cursor) : Cursor := (Cursor.mk tokens 0).onto later

variable {later : Cursor} {u v : List Token}

theorem behind_append : later.behind (u ++ v) = (later.behind v).behind u := by
  rw [behind, onto, List.append_assoc]
  rfl

theorem spans_all (tokens : List Token) (stop : Nat) :
    Spans Token.kind ⟨tokens, stop⟩ ⟨[], stop⟩ (tokens.map Token.kind) :=
  ⟨rfl, tokens, (List.append_nil _).symm, rfl⟩

-- What does not go on with an operand, whatever the operand is.
def Apart (cursor : Cursor) : Prop :=
  cursor.current.kind ≠ .assign ∧ cursor.current.kind ≠ .elseWord

end Cursor

section Primary

variable {w : List TokenKind} {primary behind : List Token} {later : Cursor}

theorem primary_begins (h : Derives .primary w)
    (hassign : ¬[.identifier, .assign] <+: w) : w = [.identifier] ∨
      ∃ kind rest, w = kind :: rest ∧ kind ≠ .identifier ∧ UnaryOp.ofToken? kind = none := by
  cases h with
  | identifier => exact .inl rfl
  | @assignment more _ => exact absurd (List.prefix_append _ more) hassign
  | _ => exact .inr ⟨_, _, rfl, by decide, rfl⟩

theorem postfixes_begins (h : Derives .postfixes w) :
    w = [] ∨ ∃ kind rest, w = kind :: rest ∧ (kind = .openParen ∨ kind = .openBracket) := by
  cases h with
  | noPostfix => exact .inl rfl
  | call _ _ => exact .inr ⟨_, _, rfl, .inl rfl⟩
  | index _ _ => exact .inr ⟨_, _, rfl, .inr rfl⟩

theorem postfixes_apart (h : Derives .postfixes (behind.map Token.kind)) (hlater : later.Apart) :
    (later.behind behind).Apart := by
  obtain hnil | ⟨kind, rest, hkinds, hk⟩ := postfixes_begins h
  · rwa [List.map_eq_nil_iff.mp hnil]
  · obtain ⟨token, more, rfl, rfl, -⟩ := List.map_eq_cons_iff.mp hkinds
    change token.kind ≠ .assign ∧ token.kind ≠ .elseWord
    obtain hopen | hopen := hk <;> simp [hopen]

-- A primary that is no assignment is read as the same tree in front of all tokens.
theorem primary_reads (h : Derives .primary (primary.map Token.kind))
    (hassign : ¬[.identifier, .assign] <+: primary.map Token.kind)
    (hread : (Cursor.mk primary 0).Readable) :
    ∃ tree, tree ≠ .missing ∧ Spelled (.expression .whole tree) primary ∧
      ∀ later : Cursor, later.Apart → Reads operand (later.behind primary) (some tree) later := by
  obtain hatom | ⟨more, hmore, -⟩ := Acceptance.accepts h
  case inr => exact absurd (hmore ▸ List.prefix_append _ more) hassign
  obtain ⟨tree, hne, hreads⟩ := hatom.reads _ _ (spans_all primary 0) hread nofun
  refine ⟨tree, hne, ?_, fun later hlater => ?_⟩
  · have hdone : Reads (expression .lowest) ⟨primary, 0⟩ tree ⟨[], 0⟩ :=
      .expression_some hreads (.operators_done (Nat.le_refl _))
    obtain ⟨used, hused, hexpressed⟩ :=
      (expression_clean _ _ (Nat.lt_succ_self _)).of_reads hdone
    obtain rfl : primary = used := by simpa using hused
    exact hexpressed.whole nofun
  · obtain hname | ⟨kind, rest, hkinds, hk, hop⟩ := primary_begins h hassign
    · obtain ⟨token, rfl, htoken⟩ := List.map_eq_singleton_iff.mp hname
      have halone : Reads operand ⟨[token], 0⟩ (some (.identifier token.literal)) ⟨[], 0⟩ :=
        .operand_identifier htoken nofun
      obtain ⟨rfl⟩ : tree = .identifier token.literal := by
        simpa [Reads] using hreads.symm.trans halone
      exact .operand_identifier htoken hlater.1
    · obtain ⟨token, more, rfl, rfl, -⟩ := List.map_eq_cons_iff.mp hkinds
      have hextends : Extends True later operand ⟨token :: more, 0⟩ :=
        operand_extends hlater.2 (List.cons_ne_nil _ _) fun _ => ⟨hk, hop⟩
      exact hextends _ _ hreads (.inl trivial)

end Primary

-- What may stand behind an operand: nothing that holds it tighter than an operator in front of it.
def Cursor.Loose (cursor : Cursor) : Prop :=
  cursor.Apart ∧ (Precedence.ofToken cursor.current.kind).rank ≤ Precedence.unary.rank

-- Tokens that are read as a tree, whatever may stand behind them.
def ReadAs (tokens : List Token) (tree : Expr) : Prop :=
  ∀ later : Cursor, later.Loose → ∀ floor, floor.rank ≤ Precedence.unary.rank →
    expression floor (later.behind tokens) = operators floor tree later

namespace ReadAs

variable {tokens front : List Token} {token : Token} {tree : Expr} {op : UnaryOp}
  {ops : List UnaryOp}

theorem unary (h : ReadAs tokens tree) (hop : UnaryOp.ofToken? token.kind = some op) :
    ReadAs (token :: tokens) (.unary op tree) := by
  intro later hlater floor _
  have hreads : Reads (expression .unary) (later.behind tokens) tree later :=
    .trans (h later hlater .unary (Nat.le_refl _)) (.operators_done hlater.2)
  have hoperand : Reads operand (later.behind (token :: tokens)) (some (.unary op tree)) later :=
    .operand_unary hop hreads
  exact hoperand.expression_apply floor

theorem unaries (h : ReadAs tokens tree)
    (hops : List.Forall₂ (fun token op => UnaryOp.ofToken? token.kind = some op) front ops) :
    ReadAs (front ++ tokens) (ops.foldr .unary tree) := by
  induction hops with
  | nil => exact h
  | cons hop _ ih => exact ih.unary hop

end ReadAs

section Parts

variable {front primary behind : List Token} {ops : List UnaryOp}

-- What stands behind a primary goes on with it before any operator in front of it does.
theorem readAs_of_parts
    (hops : List.Forall₂ (fun token op => UnaryOp.ofToken? token.kind = some op) front ops)
    (hprimary : Derives .primary (primary.map Token.kind))
    (hassign : ¬[.identifier, .assign] <+: primary.map Token.kind)
    (hbehind : Derives .postfixes (behind.map Token.kind))
    (hread : (Cursor.mk (front ++ (primary ++ behind)) 0).Readable) :
    ∃ inner value, value ≠ .missing ∧ Spelled (.expression .whole inner) primary ∧
      Trailed inner behind value ∧
      ReadAs (front ++ (primary ++ behind)) (ops.foldr .unary value) := by
  have hp : (Cursor.mk primary 0).Readable := fun token hmem => hread token (by simp [hmem])
  have hb : (Cursor.mk behind 0).Readable := fun token hmem => hread token (by simp [hmem])
  obtain ⟨inner, hne, hspelled, hreads⟩ := primary_reads hprimary hassign hp
  have hsuffixes : Acceptance.Suffixes (behind.map Token.kind) := Acceptance.accepts hbehind
  obtain ⟨value, hsuffixed⟩ := hsuffixes.reads _ _ (spans_all behind 0) hb inner
  obtain ⟨used, hused, htrailed⟩ := hsuffixed.trailed
  obtain rfl : behind = used := by simpa using hused
  refine ⟨inner, value, hsuffixed.ne_missing hne, hspelled, htrailed, .unaries ?_ hops⟩
  intro later hlater floor hfloor
  rw [behind_append, (hreads _ (postfixes_apart hbehind hlater.1)).expression_apply floor]
  exact (hsuffixed.onto hlater.1.2).operators_eq (Nat.lt_succ_of_le hfloor)

end Parts

-- The mark behind a statement.
def Token.semiColon : Token := ⟨.semiColon, 0, ";"⟩

theorem shapes_semiColon : Lexer.shapes [';'] = [Token.semiColon.shape] :=
  Lexer.shapes_mark (by decide) []

-- A source is read like all tokens of the same shapes.
theorem parse_of_statement {source : String} {tokens : List Token} {stmt : Stmt} {rest : Cursor}
    (hshapes : tokens.map Token.shape = Lexer.shapes source.toList)
    (h : Reads statement ⟨tokens, 0⟩ stmt rest) (hk : (Cursor.mk tokens 0).current.kind ≠ .eof)
    (hrest : rest.ahead = []) : parse source = ⟨[stmt], []⟩ := by
  have hsame : tokens.map Token.shape = (ofSource source).ahead.map Token.shape := hshapes
  have halike : (Cursor.mk tokens 0).Alike .shape (ofSource source) := alike_of_shapes hsame
  have hend : rest.current.kind = .eof := by simp [Cursor.current, hrest, Cursor.finish]
  have hparse : (Cursor.mk tokens 0).parse = ⟨[stmt], rest, []⟩ := by
    rw [parse_of_ne_eof hk, h, parse_of_eof hend]
    rfl
  obtain ⟨hvalue, -, hdiagnostics⟩ := parse_alike halike
  rw [hparse] at hvalue hdiagnostics
  rw [Capuchin.parse, ← hvalue, List.forall₂_nil_left_iff.mp hdiagnostics]

-- An operand, with its tokens from left to right: operators in front of it, a primary that is no
-- assignment, and argument lists and indices. Alone, as a statement, it gives no objection.
structure Operand where
  text : String
  operators : List UnaryOp
  front : List Token
  primary : List Token
  behind : List Token
  lexed : (ofSource text).ahead = front ++ (primary ++ behind)
  operators_front : List.Forall₂ (fun token op => UnaryOp.ofToken? token.kind = some op) front
    operators
  derives_primary : Derives .primary (primary.map Token.kind)
  unassigned : ¬[.identifier, .assign] <+: primary.map Token.kind
  derives_behind : Derives .postfixes (behind.map Token.kind)
  clean : (parse (text ++ ";")).diagnostics = []

namespace Operand

variable (operand : Operand)

def tokens : List Token := operand.front ++ (operand.primary ++ operand.behind)

-- What the operand is read as alone.
def tree : Expr :=
  match (parse (operand.text ++ ";")).program with
  | [.expression tree] => tree
  | _ => .missing

theorem sealed : Lexer.Sealed operand.text.toList := by
  have htokens : (ofSource (operand.text ++ ";")).ahead.map Token.shape =
      Lexer.shapes (operand.text.toList ++ [';']) := by
    rw [ofSource_at, String.toList_append]
    rfl
  apply Lexer.sealed_of_semiColon
  · rw [← htokens, List.forall_mem_map]
    intro token hmem
    obtain ⟨hlexed, hinner⟩ := Rereading.found_of_clean operand.clean token hmem
    exact Lexer.piece_of_lexed hlexed hinner ((parse_spelled operand.clean).ne_illegal token hmem)
  · rw [← htokens, List.getLast?_map]
    intro shape hmem
    obtain ⟨token, hlast, rfl⟩ := Option.mem_map.mp hmem
    have hlexed := ofSource_lexed _ token (List.mem_of_getLast? hlast)
    have hone : ∀ word : String, (.word word, token.kind) ∈ Pattern.table → word.length = 1 →
        token.shape.2.length = 1 := fun word hword h => by
      rwa [Token.shape, hlexed.literal_of_word hword]
    obtain hk | hk := getLast?_of_clean operand.clean token hlast
    · exact hone ";" (by rw [hk]; decide) (by decide)
    · exact hone "\x7d" (by rw [hk]; decide) (by decide)

theorem shapes_tokens :
    operand.tokens.map Token.shape = Lexer.shapes operand.text.toList := by
  rw [tokens, ← operand.lexed]
  exact ofSource_at _

theorem shapes_alone : (operand.tokens ++ [Token.semiColon]).map Token.shape =
    Lexer.shapes (operand.text ++ ";").toList := by
  have hsealed := operand.sealed [';'] (.cons (by decide) _)
  rw [List.map_append, operand.shapes_tokens, String.toList_append]
  rw [shapes_semiColon] at hsealed
  exact hsealed.symm

theorem readable : (Cursor.mk operand.tokens 0).Readable := by
  intro token hmem
  have hshape : token.shape ∈ (ofSource (operand.text ++ ";")).ahead.map Token.shape := by
    rw [ofSource_at, ← operand.shapes_alone]
    exact List.mem_map_of_mem (List.mem_append_left _ hmem)
  obtain ⟨other, hother, hsame⟩ := List.mem_map.mp hshape
  rw [← Likeness.shape.kind_eq hsame, ← Likeness.shape.literal_eq hsame]
  refine ⟨(parse_spelled operand.clean).integer_read other hother, fun hk => ?_⟩
  obtain ⟨bits, -, hbits⟩ := (ofSource_lexed _ other hother).float_read hk
  rw [hbits]
  rfl

theorem derives : Derives (.expression .whole) (operand.tokens.map Token.kind) := by
  have hfront := operand.operators_front
  rw [tokens, List.map_append]
  generalize operand.front = front, operand.operators = ops at hfront
  refine .single ?_
  induction hfront with
  | nil =>
      rw [List.map_nil, List.nil_append, List.map_append]
      exact .primary operand.derives_primary operand.derives_behind
  | cons hop _ ih => exact .unary hop ih

-- Alone, an operand is read as the tree it is read as in front of an operator.
theorem parse_of_readAs {tree : Expr} (h : ReadAs operand.tokens tree) :
    parse (operand.text ++ ";") = ⟨[.expression tree], []⟩ := by
  have hloose : (Cursor.mk [Token.semiColon] 0).Loose := ⟨⟨nofun, nofun⟩, Nat.zero_le _⟩
  have hreads : Reads (expression .lowest) ⟨operand.tokens ++ [Token.semiColon], 0⟩ tree
      ⟨[Token.semiColon], 0⟩ :=
    .trans (h _ hloose .lowest (Nat.zero_le _)) (.operators_done (Nat.le_refl _))
  have hshapes := operand.shapes_alone
  obtain ⟨hending, -⟩ | ⟨kind, rest, hkinds, hbegins, hfn⟩ :=
    Acceptance.Chain.begins (Acceptance.accepts operand.derives)
  · cases hending
  · obtain ⟨token, more, htokens, rfl, rfl⟩ := List.map_eq_cons_iff.mp hkinds
    rw [htokens, List.cons_append] at hreads hshapes
    refine parse_of_statement hshapes (.statement_expression ?_ ?_ hreads rfl) ?_ rfl
    · exact Acceptance.beginsStatement_of_beginsExpression hbegins
    · intro hk
      obtain ⟨tail, htail⟩ := List.head?_eq_some_iff.mp (hfn hk)
      obtain ⟨next, rest, rfl, hopen, -⟩ := List.map_eq_cons_iff.mp htail
      change next.kind ≠ .identifier
      simp [hopen]
    · intro hk
      change token.kind = .eof at hk
      simp [hk, Acceptance.beginsExpression] at hbegins

-- The operators in front of an operand go around its argument lists and indices, and these around
-- its primary.
theorem tree_parts : ∃ inner value, Spelled (.expression .whole inner) operand.primary ∧
    Trailed inner operand.behind value ∧ operand.tree = operand.operators.foldr .unary value ∧
      operand.tree ≠ .missing ∧ ReadAs operand.tokens operand.tree := by
  obtain ⟨inner, value, hne, hspelled, htrailed, hreadAs⟩ :=
    readAs_of_parts operand.operators_front operand.derives_primary operand.unassigned
      operand.derives_behind operand.readable
  have htree : operand.tree = operand.operators.foldr .unary value := by
    rw [tree, operand.parse_of_readAs hreadAs]
  refine ⟨inner, value, hspelled, htrailed, htree, ?_, htree ▸ hreadAs⟩
  rw [htree]
  cases operand.operators with
  | nil => exact hne
  | cons => nofun

end Operand

end Capuchin
