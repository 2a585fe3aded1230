import Capuchin.Proofs.Syntax.Operands
import Mathlib

-- The tree of operands with operators between them, which the parser climbs to by precedence.
namespace Capuchin

open Grammar (Derives)
open Reader Cursor Lexer

-- How tightly an operator holds its operands, from the loosest on.
def BinaryOp.level : BinaryOp → Nat
  | .and | .or => 0
  | .equal | .notEqual => 1
  | .less | .greater | .lessEqual | .greaterEqual => 2
  | .add | .sub => 3
  | .mul | .div => 4

-- Operators with the operands behind them.
abbrev Links := List (BinaryOp × Expr)

-- A chain taken apart at one of its operators.
structure Links.Split where
  before : Links
  op : BinaryOp
  operand : Expr
  after : Links

-- The chain at the last of its loosest operators.
def Links.root? : Links → Option Links.Split
  | [] => none
  | (op, operand) :: rest =>
    match Links.root? rest with
    | none => some ⟨[], op, operand, []⟩
    | some split =>
      if op.level < split.op.level then some ⟨[], op, operand, rest⟩
      else some { split with before := (op, operand) :: split.before }

namespace Links

theorem root?_cons_ne_none (link : BinaryOp × Expr) (links : Links) :
    root? (link :: links) ≠ none := by
  rw [root?]
  split
  · nofun
  · split <;> nofun

-- What is taken apart is put together again.
theorem root?_eq {links : Links} {split : Split} (h : links.root? = some split) :
    links = split.before ++ (split.op, split.operand) :: split.after := by
  induction links generalizing split with
  | nil => simp [root?] at h
  | cons link rest ih =>
      obtain ⟨op, operand⟩ := link
      rw [root?] at h
      split at h
      · rename_i hnone
        obtain rfl := Option.some.inj h
        cases rest with
        | nil => rfl
        | cons next rest => exact absurd hnone (root?_cons_ne_none next rest)
      · rename_i least hleast
        split at h
        · obtain rfl := Option.some.inj h
          rfl
        · obtain rfl := Option.some.inj h
          rw [List.cons_append, ← ih hleast]

theorem length_before {links : Links} {split : Split} (h : links.root? = some split) :
    split.before.length < links.length := by
  rw [root?_eq h, List.length_append, List.length_cons]
  omega

theorem length_after {links : Links} {split : Split} (h : links.root? = some split) :
    split.after.length < links.length := by
  rw [root?_eq h, List.length_append, List.length_cons]
  omega

-- The tree of a chain has the last of its loosest operators at the root, the tree of what is to
-- the left of it as its left part, and the tree of what is to the right as its right part.
def tree (first : Expr) (links : Links) : Expr :=
  match _h : links.root? with
  | none => first
  | some split =>
    .binary split.op (tree first split.before) (tree split.operand split.after)
termination_by links.length
decreasing_by
  · exact length_before _h
  · exact length_after _h

@[simp] theorem tree_nil (first : Expr) : tree first [] = first := by
  rw [tree]
  rfl

theorem tree_ne_missing {first : Expr} (h : first ≠ .missing) (links : Links) :
    tree first links ≠ .missing := by
  rw [tree]
  split
  · exact h
  · nofun

-- No operator in front of the root is looser than it, and all behind it are tighter.
theorem eq_nil_or_split (links : Links) : links = [] ∨ ∃ before op operand after,
    links = before ++ (op, operand) :: after ∧ (∀ link ∈ before, op.level ≤ link.1.level) ∧
      ∀ link ∈ after, op.level < link.1.level := by
  induction links with
  | nil => exact .inl rfl
  | cons link rest ih =>
      right
      obtain rfl | ⟨before, op, operand, after, rfl, hb, ha⟩ := ih
      · exact ⟨[], link.1, link.2, [], rfl, nofun, nofun⟩
      · by_cases hlt : link.1.level < op.level
        · refine ⟨[], link.1, link.2, _, rfl, nofun, fun other hmem => ?_⟩
          rw [List.mem_append, List.mem_cons] at hmem
          obtain hmem | rfl | hmem := hmem
          · exact hlt.trans_le (hb other hmem)
          · exact hlt
          · exact hlt.trans (ha other hmem)
        · exact ⟨link :: before, op, operand, after, rfl,
            List.forall_mem_cons.mpr ⟨Nat.le_of_not_lt hlt, hb⟩, ha⟩

section Split

variable {before after : Links} {op : BinaryOp} {first operand : Expr}

theorem root?_split (hb : ∀ link ∈ before, op.level ≤ link.1.level)
    (ha : ∀ link ∈ after, op.level < link.1.level) :
    root? (before ++ (op, operand) :: after) = some ⟨before, op, operand, after⟩ := by
  induction before with
  | nil =>
      rw [List.nil_append, root?]
      cases hroot : root? after with
      | none =>
          cases after with
          | nil => rfl
          | cons next rest => exact absurd hroot (root?_cons_ne_none next rest)
      | some split =>
          have hmem : (split.op, split.operand) ∈ after := by simp [root?_eq hroot]
          simp [ha _ hmem]
  | cons link before ih =>
      rw [List.forall_mem_cons] at hb
      rw [List.cons_append, root?, ih hb.2]
      simp [Nat.not_lt.mpr hb.1]

theorem tree_split (hb : ∀ link ∈ before, op.level ≤ link.1.level)
    (ha : ∀ link ∈ after, op.level < link.1.level) :
    tree first (before ++ (op, operand) :: after) =
      .binary op (tree first before) (tree operand after) := by
  rw [tree]
  split
  · rename_i h
    rw [root?_split hb ha] at h
    contradiction
  · rename_i split h
    rw [root?_split hb ha] at h
    obtain rfl := Option.some.inj h
    rfl

-- What holds tighter behind an operator goes to its operand, up to a link that does not.
theorem tree_operand {tighter links : Links} (ht : ∀ link ∈ tighter, op.level < link.1.level)
    (hl : ∀ link ∈ links.head?, link.1.level ≤ op.level) :
    tree first ((op, operand) :: (tighter ++ links)) =
      tree (.binary op first (tree operand tighter)) links := by
  induction hlength : links.length using Nat.strongRecOn generalizing links with
  | ind length ih =>
      subst hlength
      obtain rfl | ⟨before, root, right, after, rfl, hb, ha⟩ := eq_nil_or_split links
      · rw [List.append_nil, tree_nil, ← List.nil_append ((op, operand) :: tighter),
          tree_split (List.forall_mem_nil _) ht, tree_nil]
      · have hroot : root.level ≤ op.level := by
          cases before with
          | nil => exact hl _ rfl
          | cons link before => exact (hb link List.mem_cons_self).trans (hl link rfl)
        have hfront : ∀ link ∈ (op, operand) :: (tighter ++ before),
            root.level ≤ link.1.level := by
          rw [List.forall_mem_cons, List.forall_mem_append]
          exact ⟨hroot, fun link hmem => hroot.trans (ht link hmem).le, hb⟩
        have hhead : ∀ link ∈ before.head?, link.1.level ≤ op.level := fun link hmem =>
          hl link (by simp [Option.mem_def.mp hmem])
        have hbefore := ih before.length (by simp) hhead rfl
        rw [← List.append_assoc, ← List.cons_append, tree_split hfront ha, hbefore,
          tree_split hb ha]

end Split

end Links

theorem BinaryOp.rank_eq {kind : TokenKind} {op : BinaryOp} (h : ofToken? kind = some op) :
    (Precedence.ofToken kind).rank = op.level + 2 := by
  cases kind <;> cases h <;> rfl

theorem BinaryOp.rank_le_unary {kind : TokenKind} {op : BinaryOp} (h : ofToken? kind = some op) :
    (Precedence.ofToken kind).rank ≤ Precedence.unary.rank := by
  cases kind <;> cases h <;> decide

namespace Links

-- Whether a link is read on from a floor.
def above (floor : Precedence) (link : BinaryOp × Expr) : Bool :=
  floor.rank < link.1.level + 2

variable {floor inner : Precedence} {op : BinaryOp} {links : Links}

theorem above_of_takeWhile (hle : floor.rank ≤ inner.rank) :
    ∀ link ∈ links.takeWhile (above inner), above floor link := by
  intro link hmem
  have habove := List.mem_takeWhile_imp hmem
  rw [above, decide_eq_true_eq] at habove ⊢
  exact hle.trans_lt habove

-- What is above a higher floor is above a lower one, and may be followed by more of the lower.

theorem takeWhile_above (hle : floor.rank ≤ inner.rank) (links : Links) :
    links.takeWhile (above floor) = links.takeWhile (above inner) ++
      (links.dropWhile (above inner)).takeWhile (above floor) := by
  rw [← List.takeWhile_append_of_pos (above_of_takeWhile hle), List.takeWhile_append_dropWhile]

theorem dropWhile_above (hle : floor.rank ≤ inner.rank) (links : Links) :
    links.dropWhile (above floor) = (links.dropWhile (above inner)).dropWhile (above floor) := by
  conv_lhs => rw [← List.takeWhile_append_dropWhile (p := above inner) (l := links)]
  exact List.dropWhile_append_of_pos (above_of_takeWhile hle)

theorem tighter_of_takeWhile (hrank : inner.rank = op.level + 2) :
    ∀ link ∈ links.takeWhile (above inner), op.level < link.1.level := by
  intro link hmem
  have habove := List.mem_takeWhile_imp hmem
  rw [above, decide_eq_true_eq] at habove
  omega

theorem looser_of_dropWhile (hrank : inner.rank = op.level + 2) :
    ∀ link ∈ ((links.dropWhile (above inner)).takeWhile (above floor)).head?,
      link.1.level ≤ op.level := by
  intro link hmem
  rw [List.head?_takeWhile, Option.mem_def, Option.filter_eq_some_iff] at hmem
  have hnot := List.head?_dropWhile_not (above inner) links
  rw [hmem.1] at hnot
  change above inner link = false at hnot
  rw [above, decide_eq_false_iff_not] at hnot
  omega

end Links

-- Marks of operators and tokens that are read as their operands, up to the end of a statement.
inductive Chained : Links → List Token → Prop where
  | done : Chained [] [Token.semiColon]
  | link {mark : Token} {op : BinaryOp} {used rest : List Token} {right : Expr} {links : Links} :
      BinaryOp.ofToken? mark.kind = some op → ReadAs used right → Chained links rest →
      Chained ((op, right) :: links) (mark :: (used ++ rest))

namespace Chained

variable {links : Links} {tokens : List Token}

theorem loose (h : Chained links tokens) : (Cursor.mk tokens 0).Loose := by
  cases h with
  | done => exact ⟨⟨nofun, nofun⟩, Nat.zero_le _⟩
  | link hop hright hlater =>
      exact ⟨⟨BinaryOp.kind_ne hop _ rfl, BinaryOp.kind_ne hop _ rfl⟩, BinaryOp.rank_le_unary hop⟩

-- From a floor the parser reads the links above it, and stops at the first that is not.
theorem climb (h : Chained links tokens) (floor : Precedence) (left : Expr) :
    ∃ rest, Chained (links.dropWhile (Links.above floor)) rest ∧
      Reads (operators floor left) ⟨tokens, 0⟩
        (Links.tree left (links.takeWhile (Links.above floor))) ⟨rest, 0⟩ := by
  induction hlength : links.length using Nat.strongRecOn generalizing links tokens floor left with
  | ind length ih =>
      subst hlength
      cases h with
      | done =>
          rw [List.takeWhile_nil, Links.tree_nil]
          exact ⟨_, .done, .operators_done (Nat.zero_le _)⟩
      | @link mark op used later right links hop hright hlater =>
          have hrank := BinaryOp.rank_eq hop
          by_cases habove : Links.above floor (op, right)
          · rw [List.dropWhile_cons_of_pos habove, List.takeWhile_cons_of_pos habove]
            rw [Links.above, decide_eq_true_eq, ← hrank] at habove
            obtain ⟨middle, hmiddle, hinner⟩ := ih _ (Nat.lt_succ_self _) hlater
              (Precedence.ofToken mark.kind) right rfl
            have hlength := List.length_dropWhile_le (Links.above (.ofToken mark.kind)) links
            obtain ⟨rest, hrest, houter⟩ := ih _ (Nat.lt_succ_of_le hlength) hmiddle floor
              (.binary op left (Links.tree right (links.takeWhile (Links.above _)))) rfl
            refine ⟨rest, Links.dropWhile_above habove.le links ▸ hrest, ?_⟩
            rw [Links.takeWhile_above habove.le, Links.tree_operand
              (Links.tighter_of_takeWhile hrank) (Links.looser_of_dropWhile hrank)]
            refine .trans (Reads.operators_binary hop habove ?_) houter
            exact .trans (hright _ hlater.loose _ (BinaryOp.rank_le_unary hop)) hinner
          · rw [List.dropWhile_cons_of_neg habove, List.takeWhile_cons_of_neg habove,
              Links.tree_nil]
            refine ⟨_, .link hop hright hlater, .operators_done ?_⟩
            rw [Links.above, decide_eq_true_eq, Nat.not_lt] at habove
            exact hrank.trans_le habove

-- From the lowest floor it reads all of them.
theorem reads (h : Chained links tokens) (left : Expr) :
    Reads (operators .lowest left) ⟨tokens, 0⟩ (Links.tree left links) ⟨[Token.semiColon], 0⟩ := by
  have habove : ∀ link ∈ links, Links.above .lowest link := fun link _ => by
    simp [Links.above, Precedence.rank]
  obtain ⟨rest, hrest, hreads⟩ := h.climb .lowest left
  rw [List.takeWhile_eq_self_iff.mpr habove] at hreads
  rw [List.dropWhile_eq_nil_iff.mpr habove] at hrest
  cases hrest
  exact hreads

end Chained

namespace Operand

-- Operators with operands behind them, as they are written behind a first operand.
def linksText : List (BinaryOp × Operand) → String
  | [] => ";"
  | (op, operand) :: rest => " " ++ op.symbol ++ " " ++ operand.text ++ linksText rest

-- A binding of operands with operators between them.
def chainText (first : Operand) (others : List (BinaryOp × Operand)) : String :=
  "let r = " ++ first.text ++ linksText others

def links (others : List (BinaryOp × Operand)) : Links :=
  others.map fun link => (link.1, link.2.tree)

theorem breaks_linksText (others : List (BinaryOp × Operand)) :
    Breaks (linksText others).toList := by
  cases others <;> simp [linksText, Breaks, separators]

theorem exists_chained (others : List (BinaryOp × Operand)) :
    ∃ tokens, tokens.map Token.shape = shapes (linksText others).toList ∧
      Chained (links others) tokens := by
  induction others with
  | nil => exact ⟨[Token.semiColon], shapes_semiColon.symm, .done⟩
  | cons link others ih =>
      obtain ⟨op, operand⟩ := link
      obtain ⟨tokens, hshapes, hchained⟩ := ih
      obtain ⟨kind, hpiece, hop⟩ := Rereading.piece_of_binary op
      obtain ⟨_, _, -, -, -, -, hreadAs⟩ := operand.tree_parts
      have htext : (linksText ((op, operand) :: others)).toList = ' ' :: (op.symbol.toList ++
          ' ' :: (operand.text.toList ++ (linksText others).toList)) := by
        simp [linksText]
      refine ⟨⟨kind, 0, op.symbol⟩ :: (operand.tokens ++ tokens), ?_, .link hop hreadAs hchained⟩
      rw [htext, shapes_blank (by decide), shapes_piece hpiece (.cons (by decide) _),
        shapes_blank (by decide), operand.sealed _ (breaks_linksText others), List.map_cons,
        List.map_append, operand.shapes_tokens, hshapes, String.ofList_toList]
      rfl

-- What stands in front of the first operand.
def binding : List Token := [⟨.letWord, 0, "let"⟩, ⟨.identifier, 0, "r"⟩, ⟨.assign, 0, "="⟩]

theorem shapes_binding (rest : List Char) :
    shapes ("let r = ".toList ++ rest) = binding.map Token.shape ++ shapes rest := by
  have hlet : Piece .letWord "let".toList := piece_of_word (by decide)
  have hlexeme : lexeme ("r".toList ++ []) = ("r".toList.length, .identifier) := by
    decide +kernel
  have hname : Piece .identifier "r".toList :=
    piece_of_lexeme hlexeme nofun ⟨'r', [], rfl, by decide⟩
  have hmark : Piece .assign "=".toList := piece_of_word (by decide)
  have htext : "let r = ".toList ++ rest =
      "let".toList ++ ' ' :: ("r".toList ++ ' ' :: ("=".toList ++ ' ' :: rest)) := rfl
  rw [htext, shapes_piece hlet (.cons (by decide) _), shapes_blank (by decide),
    shapes_piece hname (.cons (by decide) _), shapes_blank (by decide),
    shapes_piece hmark (.cons (by decide) _), shapes_blank (by decide)]
  rfl

end Operand

-- Operands with operators between them are read as the tree of the chain, each as it is alone.
theorem parse_chainText (first : Operand) (others : List (BinaryOp × Operand)) :
    parse (first.chainText others) =
      ⟨[.bind (some "r") ((Operand.links others).tree first.tree)], []⟩ ∧
    ∀ operand ∈ first :: others.map Prod.snd,
      parse (operand.text ++ ";") = ⟨[.expression operand.tree], []⟩ ∧
      ∃ inner value, Spelled (.expression .whole inner) operand.primary ∧
        Trailed inner operand.behind value ∧
        operand.tree = operand.operators.foldr .unary value := by
  refine ⟨?_, fun operand _ => ?_⟩
  · obtain ⟨_, _, -, -, -, hne, hreadAs⟩ := first.tree_parts
    obtain ⟨tokens, hshapes, hchained⟩ := Operand.exists_chained others
    have hvalue := (hreadAs _ hchained.loose .lowest (Nat.zero_le _)).trans
      (hchained.reads first.tree)
    have hlet : Reads statement ⟨Operand.binding ++ (first.tokens ++ tokens), 0⟩ _ _ :=
      .statement_let rfl rfl rfl hvalue (Links.tree_ne_missing hne _) rfl
    refine parse_of_statement ?_ hlet nofun rfl
    rw [Operand.chainText, String.append_assoc, String.toList_append, Operand.shapes_binding,
      String.toList_append, first.sealed _ (Operand.breaks_linksText others), List.map_append,
      List.map_append, first.shapes_tokens, hshapes]
  · obtain ⟨inner, value, hspelled, htrailed, htree, -, hreadAs⟩ := operand.tree_parts
    exact ⟨operand.parse_of_readAs hreadAs, inner, value, hspelled, htrailed, htree⟩

namespace Operand

def plain : Operand where
  text := "a"
  operators := []
  front := []
  primary := [⟨.identifier, 0, "a"⟩]
  behind := []
  lexed := by decide +kernel
  operators_front := .nil
  derives_primary := .identifier
  unassigned := by decide
  derives_behind := .noPostfix
  clean := by decide +kernel

def between : Operand where
  text := "!-f(1)[0]"
  operators := [.not, .negate]
  front := [⟨.bang, 0, "!"⟩, ⟨.minus, 1, "-"⟩]
  primary := [⟨.identifier, 2, "f"⟩]
  behind := [⟨.openParen, 3, "("⟩, ⟨.integer, 4, "1"⟩, ⟨.closeParen, 5, ")"⟩,
    ⟨.openBracket, 6, "["⟩, ⟨.integer, 7, "0"⟩, ⟨.closeBracket, 8, "]"⟩]
  lexed := by decide +kernel
  operators_front := .cons rfl (.cons rfl .nil)
  derives_primary := .identifier
  unassigned := by decide
  derives_behind :=
    have hnumber : Derives (.expression .whole) [.integer] := .expression_primary .integer
    .call (u := [.integer]) (.separated (v := []) hnumber .noFurther)
      (.index (u := [.integer]) hnumber .noPostfix)
  clean := by decide +kernel

def parenthesised : Operand where
  text := "(b + 2)"
  operators := []
  front := []
  primary := [⟨.openParen, 0, "("⟩, ⟨.identifier, 1, "b"⟩, ⟨.plus, 3, "+"⟩, ⟨.integer, 5, "2"⟩,
    ⟨.closeParen, 6, ")"⟩]
  behind := []
  lexed := by decide +kernel
  operators_front := .nil
  derives_primary :=
    .grouped (w := [.identifier, .plus, .integer]) (.expression_binary (u := [.identifier])
      (.expression_primary .identifier) rfl (.expression_primary .integer))
  unassigned := by decide
  derives_behind := .noPostfix
  clean := by decide +kernel

def behindPlain : List (BinaryOp × Operand) :=
  [(.sub, between), (.mul, parenthesised), (.sub, plain), (.equal, plain)]

end Operand

-- A subtraction is grouped to the left, a product is an operand of it, and the operators in front
-- of a call are around it.
theorem parse_chainText_levels :
    Operand.plain.chainText Operand.behindPlain =
      "let r = a - !-f(1)[0] * (b + 2) - a == a;" ∧
    parse (Operand.plain.chainText Operand.behindPlain) =
      ⟨[.bind (some "r") ((Operand.links Operand.behindPlain).tree Operand.plain.tree)], []⟩ ∧
    programText [.bind (some "r") ((Operand.links Operand.behindPlain).tree Operand.plain.tree)] =
      "let r = (((a - ((!(-f(1)[0])) * (b + 2))) - a) == a);" ∧
    Operand.between ∈ Operand.plain :: Operand.behindPlain.map Prod.snd ∧
    parse "!-f(1)[0];" = ⟨[.expression Operand.between.tree], []⟩ ∧
    ∃ inner value, Spelled (.expression .whole inner) Operand.between.primary ∧
      Trailed inner Operand.between.behind value ∧
      Operand.between.tree = .unary .not (.unary .negate value) := by
  have htext : Operand.plain.chainText Operand.behindPlain =
      "let r = a - !-f(1)[0] * (b + 2) - a == a;" := by decide +kernel
  have hmem : Operand.between ∈ Operand.plain :: Operand.behindPlain.map Prod.snd :=
    .tail _ (.head _)
  obtain ⟨hparse, hoperands⟩ := parse_chainText Operand.plain Operand.behindPlain
  obtain ⟨halone, inner, value, hspelled, htrailed, htree⟩ := hoperands Operand.between hmem
  have hprinted : programText (parse (Operand.plain.chainText Operand.behindPlain)).program =
      "let r = (((a - ((!(-f(1)[0])) * (b + 2))) - a) == a);" := by
    rw [htext]
    decide +kernel
  rw [hparse] at hprinted
  exact ⟨htext, hparse, hprinted, hmem, halone, inner, value, hspelled, htrailed, htree⟩

end Capuchin
