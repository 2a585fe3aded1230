import Capuchin.Proofs.Syntax.Reads
import Capuchin.Proofs.Syntax.Spelling
import Mathlib

-- The parser accepts what is in the grammar.
namespace Capuchin

open Grammar (Ending Nonterminal Derives)

namespace Cursor

-- All numbers from a cursor on have a value.
def Readable (cursor : Cursor) : Prop :=
  ∀ token ∈ cursor.ahead,
    (token.kind = .integer → (Integer.read? token.literal).isSome) ∧
      (token.kind = .float → (FloatText.read? token.literal).isSome)

theorem Readable.within {cursor rest : Cursor} (h : cursor.Readable) (hw : rest.Within cursor) :
    rest.Readable :=
  fun token hmem => h token (hw.2.subset hmem)

theorem Readable.current {cursor : Cursor} (h : cursor.Readable)
    (hk : cursor.current.kind ≠ .eof) :
    (cursor.current.kind = .integer → (Integer.read? cursor.current.literal).isSome) ∧
      (cursor.current.kind = .float → (FloatText.read? cursor.current.literal).isSome) := by
  apply h
  rw [ahead_eq_cons hk]
  exact List.mem_cons_self

theorem Spans.within {view : Token → β} {cursor rest : Cursor} {w : List β}
    (h : Spans view cursor rest w) : rest.Within cursor := by
  obtain ⟨hstop, used, hused, -⟩ := h
  exact ⟨hstop.symm, used, hused.symm⟩

theorem Spans.current_kind {cursor rest : Cursor} {w : List TokenKind}
    (h : Spans Token.kind cursor rest w) : cursor.current.kind = w.headD rest.current.kind := by
  cases w with
  | nil =>
      rw [spans_nil.mp h]
      rfl
  | cons kind w => exact (spans_cons h).1

end Cursor

theorem Reader.Reads.within {reader : Reader α} {cursor rest : Cursor} {value : α}
    (h : Reads reader cursor value rest) (hs : Stays reader) : rest.Within cursor := by
  have hw := hs cursor
  rw [Reads] at h
  rw [h] at hw
  exact hw

open Reader Cursor

namespace Acceptance

-- The kinds of tokens that begin an expression with its last primary.
def beginsExpression : TokenKind → Bool
  | .integer | .float | .string | .trueWord | .falseWord | .identifier
  | .openParen | .openBracket | .fnWord | .bang | .plus | .minus => true
  | _ => false

theorem beginsStatement_of_beginsExpression {kind : TokenKind} (h : beginsExpression kind) :
    kind.beginsStatement = false := by
  cases kind <;> simp_all [beginsExpression, TokenKind.beginsStatement]

-- The kinds of tokens in front of which an expression ends.
def ends : Ending → TokenKind → Bool
  | _, .semiColon => true
  | .whole, .closeParen | .whole, .closeBracket | .whole, .comma => true
  | _, _ => false

theorem rank_of_ends {ending : Ending} {kind : TokenKind} (h : ends ending kind) :
    (Precedence.ofToken kind).rank = 0 := by
  cases ending <;> cases kind <;> simp_all [ends, Precedence.ofToken, Precedence.rank]

theorem ne_assign_of_ends {ending : Ending} {kind : TokenKind} (h : ends ending kind) :
    kind ≠ .assign := by
  rintro rfl
  cases ending <;> simp [ends] at h

-- A primary that is no assignment.
structure Atom (w : List TokenKind) : Prop where
  begins : ∃ kind rest, w = kind :: rest ∧ beginsExpression kind ∧
    (kind = .fnWord → rest.head? = some .openParen)
  reads : ∀ cursor rest, Spans Token.kind cursor rest w → cursor.Readable →
    rest.current.kind ≠ .assign → ∃ value, value ≠ .missing ∧
      Reads operand cursor (some value) rest

-- Argument lists and indices behind a primary.
structure Suffixes (w : List TokenKind) : Prop where
  begins : w.head? ≠ some .assign
  reads : ∀ cursor rest, Spans Token.kind cursor rest w → cursor.Readable →
    ∀ left, ∃ value, Suffixed left cursor value rest

-- The tokens of an expression from left to right. An assignment takes all that follows it, so
-- what the grammar has behind one stands inside it here.
inductive Chain : Ending → List TokenKind → Prop where
  | absent : Chain .cut []
  | unary : UnaryOp.ofToken? kind = some op → Chain ending w → Chain ending (kind :: w)
  | assignment : Chain ending w → Chain ending (.identifier :: .assign :: w)
  | last : Atom u → Suffixes v → Chain .whole (u ++ v)
  | binary : Atom u → Suffixes v → BinaryOp.ofToken? kind = some op → Chain ending w →
      Chain ending (u ++ (v ++ kind :: w))

-- What is left of an expression in front of an operator that a floor holds back.
inductive Tail (floor : Precedence) (ending : Ending) : List TokenKind → Prop where
  | done : Tail floor ending []
  | held : BinaryOp.ofToken? kind = some op → (Precedence.ofToken kind).rank ≤ floor.rank →
      Chain ending w → Tail floor ending (kind :: w)

-- A reader stops in front of a tail of at most `length` tokens.
def Leaves (ending : Ending) (floor : Precedence) (rest : Cursor) (length : Nat)
    (reader : Reader Expr) (cursor : Cursor) (value : Expr) : Prop :=
  ∃ middle w, Reads reader cursor value middle ∧ Spans Token.kind middle rest w ∧
    Tail floor ending w ∧ w.length ≤ length

def OperatorsRead (length : Nat) : Prop :=
  ∀ ending w, w.length ≤ length → Tail .index ending w → ∀ cursor rest,
    Spans Token.kind cursor rest w → cursor.Readable → ends ending rest.current.kind →
      ∀ floor left, floor.rank < Precedence.call.rank → left ≠ .missing →
        ∃ value, value ≠ .missing ∧
          Leaves ending floor rest w.length (operators floor left) cursor value

def ExpressionReads (length : Nat) : Prop :=
  ∀ ending w, w.length ≤ length → Chain ending w → ∀ cursor rest,
    Spans Token.kind cursor rest w → cursor.Readable → ends ending rest.current.kind →
      ∀ floor, floor.rank < Precedence.call.rank → ∃ value, (w ≠ [] → value ≠ .missing) ∧
        Leaves ending floor rest w.length (expression floor) cursor value

theorem rank_of_binary {kind : TokenKind} {op : BinaryOp} (h : BinaryOp.ofToken? kind = some op) :
    0 < (Precedence.ofToken kind).rank ∧
      (Precedence.ofToken kind).rank < Precedence.call.rank := by
  cases kind <;> simp_all [BinaryOp.ofToken?, Precedence.ofToken, Precedence.rank]

-- At the lowest floor no operator is held back.
theorem Tail.eq_nil {ending : Ending} {w : List TokenKind} (h : Tail .lowest ending w) :
    w = [] := by
  cases h with
  | done => rfl
  | held hop hrank _ =>
      exact absurd (rank_of_binary hop).1 (Nat.not_lt.mpr hrank)

theorem Tail.raise {floor : Precedence} {ending : Ending} {w : List TokenKind}
    (h : Tail floor ending w) : Tail .index ending w := by
  cases h with
  | done => exact .done
  | held hop _ hw =>
      have hlt := (rank_of_binary hop).2
      exact .held hop (by simp only [Precedence.rank] at hlt ⊢; omega) hw

theorem operatorsRead_of {length : Nat}
    (ih : ∀ less, less < length → OperatorsRead less ∧ ExpressionReads less) :
    OperatorsRead length := by
  intro ending w hle ht cursor rest hspans hread hend floor left hfloor hleft
  cases ht with
  | done =>
      obtain rfl := spans_nil.mp hspans
      have hrank := rank_of_ends hend
      exact ⟨left, hleft, cursor, [], .operators_done (by omega), hspans, .done, Nat.le_refl _⟩
  | @held kind op w hop hindex hchain =>
      obtain ⟨rfl, hnext⟩ := spans_cons hspans
      by_cases hrank : (Precedence.ofToken cursor.current.kind).rank ≤ floor.rank
      · exact ⟨left, hleft, cursor, _, .operators_done hrank, hspans, .held hop hrank hchain,
          Nat.le_refl _⟩
      · rw [List.length_cons] at hle
        obtain ⟨ho, he⟩ := ih w.length (by omega)
        have hwithin := cursor.advance_within
        obtain ⟨right, -, middle, t, hright, ht, htail, hlen⟩ := he ending w (Nat.le_refl _) hchain
          cursor.advance rest hnext (hread.within hwithin) hend _ (rank_of_binary hop).2
        have hstays := hright.within (expression_stays _)
        obtain ⟨value, hvalue, last, u, hreads, hu, htu, hlenu⟩ := ho ending t hlen htail.raise
          middle rest ht (hread.within (hstays.trans hwithin)) hend floor
          (.binary op left right) hfloor nofun
        refine ⟨value, hvalue, last, u, ?_, hu, htu, ?_⟩
        · exact .trans (Reads.operators_binary hop (Nat.not_le.mp hrank) hright) hreads
        · simp only [List.length_cons]
          omega

-- An atom, what stands behind it, and the operators from there on.
theorem atom_reads {length : Nat} (ho : OperatorsRead length) {ending : Ending}
    {u v w : List TokenKind} (hu : Atom u) (hv : Suffixes v) (ht : Tail .index ending w)
    (hle : w.length ≤ length) {cursor rest : Cursor}
    (hspans : Spans Token.kind cursor rest (u ++ (v ++ w))) (hread : cursor.Readable)
    (hend : ends ending rest.current.kind) {floor : Precedence}
    (hfloor : floor.rank < Precedence.call.rank) :
    ∃ value, value ≠ .missing ∧
      Leaves ending floor rest (u ++ (v ++ w)).length (expression floor) cursor value := by
  obtain ⟨behind, hbehind, hsuffixes⟩ := spans_append hspans
  obtain ⟨middle, hmiddle, htail⟩ := spans_append hsuffixes
  have hassign : behind.current.kind ≠ .assign := by
    rw [hsuffixes.current_kind]
    cases hvcases : v with
    | cons kind v =>
        have hhead := hv.begins
        simpa [hvcases] using hhead
    | nil =>
        cases ht with
        | done => exact ne_assign_of_ends hend
        | held hop _ _ => exact BinaryOp.kind_ne hop .assign rfl
  obtain ⟨left, hleft, hoperand⟩ := hu.reads cursor behind hbehind hread hassign
  have hb := hread.within hbehind.within
  obtain ⟨called, hsuffixed⟩ := hv.reads behind middle hmiddle hb left
  obtain ⟨value, hvalue, last, t, hreads, hspan, htail', hlen⟩ := ho ending w hle ht middle rest
    htail (hb.within hmiddle.within) hend floor called hfloor (hsuffixed.ne_missing hleft)
  refine ⟨value, hvalue, last, t, ?_, hspan, htail', ?_⟩
  · exact .expression_some hoperand (.trans (hsuffixed.operators_eq hfloor) hreads)
  · simp only [List.length_append]
    omega

theorem expressionReads_of {length : Nat} (ho : OperatorsRead length)
    (ih : ∀ less, less < length → ExpressionReads less) : ExpressionReads length := by
  intro ending w hle hchain cursor rest hspans hread hend floor hfloor
  cases hchain with
  | absent =>
      obtain rfl := spans_nil.mp hspans
      have hk : cursor.current.kind = .semiColon := by
        generalize cursor.current.kind = kind at hend
        cases kind <;> simp [ends] at hend
        rfl
      exact ⟨.missing, nofun, cursor, [], .expression_none (.operand_none hk), hspans, .done,
        Nat.le_refl _⟩
  | @unary kind op _ w hop hchain =>
      obtain ⟨rfl, hnext⟩ := spans_cons hspans
      rw [List.length_cons] at hle
      have hwithin := cursor.advance_within
      obtain ⟨operand, -, middle, t, hoperand, ht, htail, hlen⟩ := ih w.length (by omega) ending w
        (Nat.le_refl _) hchain cursor.advance rest hnext (hread.within hwithin) hend .unary
        (by decide)
      have hstays := hoperand.within (expression_stays _)
      obtain ⟨value, hvalue, last, u, hreads, hu, htu, hlenu⟩ := ho ending t (by omega) htail.raise
        middle rest ht (hread.within (hstays.trans hwithin)) hend floor (.unary op operand) hfloor
        nofun
      refine ⟨value, fun _ => hvalue, last, u, ?_, hu, htu, ?_⟩
      · exact .expression_some (.operand_unary hop hoperand) hreads
      · simp only [List.length_cons]
        omega
  | @assignment _ w hchain =>
      obtain ⟨hname, hrest⟩ := spans_cons hspans
      obtain ⟨hmark, hnext⟩ := spans_cons hrest
      simp only [List.length_cons] at hle
      have hwithin := cursor.advance.advance_within.trans cursor.advance_within
      obtain ⟨value, -, middle, t, hvalue, ht, htail, -⟩ := ih w.length (by omega) ending w
        (Nat.le_refl _) hchain cursor.advance.advance rest hnext (hread.within hwithin) hend
        .lowest (by decide)
      obtain rfl := htail.eq_nil
      obtain rfl := spans_nil.mp ht
      have hrank := rank_of_ends hend
      refine ⟨.assignment cursor.current.literal value, fun _ => nofun, middle, [], ?_, ht, .done,
        Nat.zero_le _⟩
      exact .expression_some (.operand_assignment hname hmark hvalue) (.operators_done (by omega))
  | @last u v hu hv =>
      rw [← List.append_nil v] at hspans
      obtain ⟨value, hvalue, hleaves⟩ :=
        atom_reads ho hu hv .done (Nat.zero_le _) hspans hread hend hfloor
      rw [List.append_nil] at hleaves
      exact ⟨value, fun _ => hvalue, hleaves⟩
  | @binary u v kind op _ w hu hv hop hchain =>
      have hrank : (Precedence.ofToken kind).rank ≤ Precedence.index.rank := by
        have hlt := (rank_of_binary hop).2
        simp only [Precedence.rank] at hlt ⊢
        omega
      simp only [List.length_append, List.length_cons] at hle
      obtain ⟨value, hvalue, hleaves⟩ := atom_reads ho hu hv (.held hop hrank hchain)
        (by simp only [List.length_cons]; omega) hspans hread hend hfloor
      exact ⟨value, fun _ => hvalue, hleaves⟩

theorem reads_of_length (length : Nat) : OperatorsRead length ∧ ExpressionReads length := by
  induction length using Nat.strongRecOn with
  | ind length ih =>
      have ho := operatorsRead_of ih
      exact ⟨ho, expressionReads_of ho fun less hless => (ih less hless).2⟩

-- A whole expression is read to its end.
theorem Chain.reads {ending : Ending} {w : List TokenKind} (h : Chain ending w)
    {cursor rest : Cursor} (hspans : Spans Token.kind cursor rest w) (hread : cursor.Readable)
    (hend : ends ending rest.current.kind) :
    ∃ value, (w ≠ [] → value ≠ .missing) ∧ Reads (expression .lowest) cursor value rest := by
  obtain ⟨value, hvalue, middle, t, hreads, ht, htail, -⟩ := (reads_of_length w.length).2 ending w
    (Nat.le_refl _) h cursor rest hspans hread hend .lowest (by decide)
  obtain rfl := htail.eq_nil
  obtain rfl := spans_nil.mp ht
  exact ⟨value, hvalue, hreads⟩

theorem suffixes_nil : Suffixes [] where
  begins := nofun
  reads := by
    intro cursor rest hspans _ left
    obtain rfl := spans_nil.mp hspans
    exact ⟨left, .done⟩

theorem Suffixes.append {u v : List TokenKind} (hu : Suffixes u) (hv : Suffixes v) :
    Suffixes (u ++ v) where
  begins := by
    cases hcases : u with
    | nil => simpa using hv.begins
    | cons kind u => simpa [hcases] using hu.begins
  reads := by
    intro cursor rest hspans hread left
    obtain ⟨middle, hmiddle, hrest⟩ := spans_append hspans
    obtain ⟨called, hu⟩ := hu.reads cursor middle hmiddle hread left
    obtain ⟨value, hv⟩ := hv.reads middle rest hrest (hread.within hmiddle.within) called
    exact ⟨value, hu.trans hv⟩

namespace Chain

theorem suffixes {ending : Ending} {w v : List TokenKind} (h : Chain ending w)
    (hw : ending = .whole) (hv : Suffixes v) : Chain .whole (w ++ v) := by
  induction h with
  | absent => contradiction
  | unary hop _ ih => exact .unary hop (ih hw)
  | assignment _ ih => exact .assignment (ih hw)
  | last ha hu =>
      rw [List.append_assoc]
      exact .last ha (hu.append hv)
  | binary ha hu hop _ ih =>
      simp only [List.append_assoc, List.cons_append]
      exact .binary ha hu hop (ih hw)

theorem append {ending other : Ending} {u v : List TokenKind} {kind : TokenKind} {op : BinaryOp}
    (h : Chain ending u) (hw : ending = .whole) (hop : BinaryOp.ofToken? kind = some op)
    (hv : Chain other v) : Chain other (u ++ kind :: v) := by
  induction h with
  | absent => contradiction
  | unary hunary _ ih => exact .unary hunary (ih hw)
  | assignment _ ih => exact .assignment (ih hw)
  | last ha hu =>
      rw [List.append_assoc]
      exact .binary ha hu hop hv
  | binary ha hu hfirst _ ih =>
      simp only [List.append_assoc, List.cons_append]
      exact .binary ha hu hfirst (ih hw)

-- An expression is known by its first token.
theorem begins {ending : Ending} {w : List TokenKind} (h : Chain ending w) :
    (ending = .cut ∧ w = []) ∨ ∃ kind rest, w = kind :: rest ∧ beginsExpression kind ∧
      (kind = .fnWord → rest.head? = some .openParen) := by
  cases h with
  | absent => exact .inl ⟨rfl, rfl⟩
  | @unary kind op _ w hop _ =>
      refine .inr ⟨kind, w, rfl, ?_, ?_⟩
      · cases kind <;> simp_all [UnaryOp.ofToken?, beginsExpression]
      · exact fun hk => absurd hk (UnaryOp.kind_ne hop .fnWord rfl)
  | assignment _ => exact .inr ⟨_, _, rfl, rfl, by simp⟩
  | last ha _ =>
      obtain ⟨kind, rest, rfl, hk, hfn⟩ := ha.begins
      refine .inr ⟨kind, _, rfl, hk, fun h => ?_⟩
      simp [hfn h]
  | binary ha _ _ _ =>
      obtain ⟨kind, rest, rfl, hk, hfn⟩ := ha.begins
      refine .inr ⟨kind, _, rfl, hk, fun h => ?_⟩
      simp [hfn h]

end Chain

section Lists

variable {item : Reader α} {close : TokenKind} {I : List TokenKind → Prop}
  (hi : ∀ w, I w → ∀ cursor rest, Spans Token.kind cursor rest w → cursor.Readable →
    rest.current.kind = .comma ∨ rest.current.kind = close → ∃ value, Reads item cursor value rest)

include hi in
theorem furtherItems_read (hclose : close ≠ .comma) {ws : List (List TokenKind)}
    (hws : ∀ w ∈ ws, I w) {cursor rest : Cursor}
    (hspans : Spans Token.kind cursor rest (ws.flatMap (.comma :: ·))) (hread : cursor.Readable)
    (hend : rest.current.kind = close) {bound : Nat} (hb : cursor.room ≤ bound) :
    ∃ values, Reads (moreItems item bound) cursor values rest := by
  induction ws generalizing cursor bound with
  | nil =>
      obtain rfl := spans_nil.mp hspans
      exact ⟨[], .moreItems_nil (by rw [hend]; exact hclose)⟩
  | cons w ws ih =>
      rw [List.flatMap_cons, List.cons_append] at hspans
      obtain ⟨hcomma, hnext⟩ := spans_cons hspans
      obtain ⟨middle, hmiddle, hmore⟩ := spans_append hnext
      have hwithin := cursor.advance_within
      have hkind : middle.current.kind = .comma ∨ middle.current.kind = close := by
        rw [hmore.current_kind]
        cases ws with
        | nil => exact .inr hend
        | cons _ _ => exact .inl rfl
      obtain ⟨value, hvalue⟩ := hi w (hws w List.mem_cons_self) _ _ hmiddle (hread.within hwithin)
        hkind
      have hm := hread.within (hmiddle.within.trans hwithin)
      have hlt := cursor.room_advance_lt (by simp [hcomma])
      have hle := hmiddle.within.room_le
      obtain ⟨bound, rfl⟩ : ∃ k, bound = k + 1 := ⟨bound - 1, by omega⟩
      have htail : ∀ w ∈ ws, I w := fun w hw => hws w (List.mem_cons_of_mem _ hw)
      have hbound : middle.room ≤ bound := by omega
      obtain ⟨values, hvalues⟩ := ih htail hmore hm hbound
      exact ⟨value :: values, .moreItems_cons hcomma hvalue hvalues⟩

include hi in
theorem items_read (hclose : close ≠ .comma) (hI : ∀ w, I w → w ≠ [] ∧ w.head? ≠ some close)
    {w : List TokenKind}
    (hw : w = [] ∨ ∃ (u : List TokenKind) (ws : List (List TokenKind)),
      I u ∧ (∀ v ∈ ws, I v) ∧ w = u ++ ws.flatMap (.comma :: ·))
    {cursor rest : Cursor} (hspans : Spans Token.kind cursor rest w) (hread : cursor.Readable)
    (hend : rest.current.kind = close) {bound : Nat} (hb : cursor.room ≤ bound) :
    ∃ values, Reads (items bound close item) cursor values rest.advance := by
  obtain rfl | ⟨u, ws, hu, hws, rfl⟩ := hw
  · obtain rfl := spans_nil.mp hspans
    exact ⟨[], .items_nil hend⟩
  · obtain ⟨middle, hmiddle, hmore⟩ := spans_append hspans
    have hkind : middle.current.kind = .comma ∨ middle.current.kind = close := by
      rw [hmore.current_kind]
      cases ws with
      | nil => exact .inr hend
      | cons _ _ => exact .inl rfl
    obtain ⟨value, hvalue⟩ := hi u hu _ _ hmiddle hread hkind
    have hle := hmiddle.within.room_le
    have hbound : middle.room ≤ bound := by omega
    obtain ⟨values, hvalues⟩ := furtherItems_read hi hclose hws hmore
      (hread.within hmiddle.within) hend hbound
    have hne : cursor.current.kind ≠ close := by
      obtain ⟨hnil, hhead⟩ := hI u hu
      obtain ⟨kind, u, rfl⟩ := List.exists_cons_of_ne_nil hnil
      rw [hmiddle.current_kind]
      simpa using hhead
    exact ⟨value :: values, .items_cons hne hvalue hvalues hend⟩

end Lists

-- A statement, which is known by its first token.
structure StatementReads (w : List TokenKind) : Prop where
  begins : ∃ kind rest, w = kind :: rest ∧ kind ≠ .eof ∧ kind ≠ .closeBrace ∧ kind ≠ .elseWord
  reads : ∀ cursor rest, Spans Token.kind cursor rest w → cursor.Readable →
    rest.current.kind ≠ .elseWord → ∃ stmt, Reads statement cursor stmt rest

-- Statements up to a brace or the end. None begins with the word that goes on with another.
structure StatementsRead (w : List TokenKind) : Prop where
  begins : w.head? ≠ some .elseWord
  reads : ∀ stop cursor rest, Spans Token.kind cursor rest w → cursor.Readable →
    stop = .eof ∨ stop = .closeBrace → rest.current.kind = stop → ∀ bound, cursor.room ≤ bound →
      ∃ body, Reads (itemsUntil stop statement bound) cursor body rest

-- A block behind its opening brace.
def BlockReads (w : List TokenKind) : Prop :=
  ∀ cursor rest, Spans Token.kind cursor rest w → cursor.Readable → ∀ bound,
    cursor.room ≤ bound → ∃ body, Reads (Parser.blockRest bound statement) cursor body rest

def SeparatedBy (I : List TokenKind → Prop) (w : List TokenKind) : Prop :=
  w = [] ∨ ∃ (u : List TokenKind) (ws : List (List TokenKind)), I u ∧ (∀ v ∈ ws, I v) ∧
    w = u ++ ws.flatMap (.comma :: ·)

-- What the parser makes of the words of each nonterminal.
def Accepts : Nonterminal → List TokenKind → Prop
  | .program, _ => True
  | .statements, w => StatementsRead w
  | .statement, w => StatementReads w
  | .block, w => ∃ v, w = .openBrace :: v ∧ BlockReads v
  | .name, w => w = [.identifier]
  | .expression ending, w => Chain ending w
  | .operand ending, w => Chain ending w
  | .primary, w => Atom w ∨ ∃ v, w = .identifier :: .assign :: v ∧ Chain .whole v
  | .postfixes, w => Suffixes w
  | .separated item, w => SeparatedBy (Accepts item) w
  | .further item, w =>
    ∃ ws : List (List TokenKind), (∀ v ∈ ws, Accepts item v) ∧ w = ws.flatMap (.comma :: ·)

theorem atom_of_token {kind : TokenKind} (hk : beginsExpression kind) (hfn : kind ≠ .fnWord)
    (h : ∀ cursor : Cursor, cursor.current.kind = kind → cursor.Readable →
      cursor.advance.current.kind ≠ .assign →
        ∃ value, value ≠ .missing ∧ Reads operand cursor (some value) cursor.advance) :
    Atom [kind] where
  begins := ⟨kind, [], rfl, hk, fun h => absurd h hfn⟩
  reads := by
    intro cursor rest hspans hread hassign
    obtain ⟨hkind, hnext⟩ := spans_cons hspans
    obtain rfl := spans_nil.mp hnext
    exact h cursor hkind hread hassign

theorem atom_integer : Atom [.integer] :=
  atom_of_token rfl nofun fun cursor hk hread _ => by
    obtain ⟨value, hvalue⟩ := Option.isSome_iff_exists.mp ((hread.current (by simp [hk])).1 hk)
    exact ⟨.integer value, nofun, .operand_integer hk hvalue⟩

theorem atom_float : Atom [.float] :=
  atom_of_token rfl nofun fun cursor hk hread _ => by
    obtain ⟨value, hvalue⟩ := Option.isSome_iff_exists.mp ((hread.current (by simp [hk])).2 hk)
    exact ⟨.float value, nofun, .operand_float hk hvalue⟩

theorem atom_string : Atom [.string] :=
  atom_of_token rfl nofun fun cursor hk _ _ =>
    ⟨.string cursor.current.literal, nofun, .operand_string hk⟩

theorem atom_true : Atom [.trueWord] :=
  atom_of_token rfl nofun fun _ hk _ _ => ⟨.boolean _, nofun, .operand_true hk⟩

theorem atom_false : Atom [.falseWord] :=
  atom_of_token rfl nofun fun _ hk _ _ => ⟨.boolean _, nofun, .operand_false hk⟩

theorem atom_identifier : Atom [.identifier] :=
  atom_of_token rfl nofun fun cursor hk _ hassign =>
    ⟨.identifier cursor.current.literal, nofun, .operand_identifier hk hassign⟩

theorem Chain.ne_nil {w : List TokenKind} (h : Chain .whole w) : w ≠ [] := by
  obtain ⟨hending, -⟩ | ⟨kind, rest, rfl, -⟩ := h.begins
  · cases hending
  · exact List.cons_ne_nil _ _

-- A whole expression in front of a token that closes it.
theorem Chain.enclosed {w : List TokenKind} (h : Chain .whole w) {close : TokenKind}
    (hclose : ends .whole close) {cursor rest : Cursor}
    (hspans : Spans Token.kind cursor rest (w ++ [close])) (hread : cursor.Readable) :
    ∃ value middle, value ≠ .missing ∧ Reads (expression .lowest) cursor value middle ∧
      middle.current.kind = close ∧ middle.advance = rest := by
  obtain ⟨middle, hmiddle, hlast⟩ := spans_append hspans
  obtain ⟨hk, hnext⟩ := spans_cons hlast
  obtain ⟨value, hvalue, hreads⟩ := h.reads hmiddle hread (by rw [hk]; exact hclose)
  exact ⟨value, middle, hvalue h.ne_nil, hreads, hk, spans_nil.mp hnext⟩

theorem atom_grouped {w : List TokenKind} (h : Chain .whole w) :
    Atom (.openParen :: w ++ [.closeParen]) where
  begins := ⟨_, _, rfl, rfl, nofun⟩
  reads := by
    intro cursor rest hspans hread _
    obtain ⟨hopen, hnext⟩ := spans_cons hspans
    obtain ⟨value, middle, hvalue, hreads, hclose, rfl⟩ :=
      h.enclosed rfl hnext (hread.within cursor.advance_within)
    exact ⟨value, hvalue, .operand_grouped hopen hreads hclose⟩

theorem separated_read {w : List TokenKind} (h : SeparatedBy (Chain .whole) w) {close : TokenKind}
    (hclose : close = .closeParen ∨ close = .closeBracket) {cursor rest : Cursor}
    (hspans : Spans Token.kind cursor rest (w ++ [close])) (hread : cursor.Readable) {bound : Nat}
    (hb : cursor.room ≤ bound) :
    ∃ values, Reads (items bound close (expression .lowest)) cursor values rest := by
  obtain ⟨middle, hmiddle, hlast⟩ := spans_append hspans
  obtain ⟨hk, hnext⟩ := spans_cons hlast
  obtain rfl := spans_nil.mp hnext
  refine items_read (I := Chain .whole) ?_ ?_ ?_ h hmiddle hread hk hb
  · intro w hw cursor rest hspans hread hend
    obtain ⟨value, -, hreads⟩ := hw.reads hspans hread (by
      obtain rfl | rfl := hclose <;> obtain h | h := hend <;> simp [h, ends])
    exact ⟨value, hreads⟩
  · obtain rfl | rfl := hclose <;> nofun
  · intro w hw
    refine ⟨hw.ne_nil, ?_⟩
    obtain ⟨hending, -⟩ | ⟨kind, rest, rfl, hbegins, -⟩ := hw.begins
    · cases hending
    · obtain rfl | rfl := hclose <;> rintro ⟨⟩ <;> simp [beginsExpression] at hbegins

theorem atom_array {w : List TokenKind} (h : SeparatedBy (Chain .whole) w) :
    Atom (.openBracket :: w ++ [.closeBracket]) where
  begins := ⟨_, _, rfl, rfl, nofun⟩
  reads := by
    intro cursor rest hspans hread _
    obtain ⟨hopen, hnext⟩ := spans_cons hspans
    obtain ⟨values, hvalues⟩ := separated_read h (.inr rfl) hnext
      (hread.within cursor.advance_within) cursor.advance_within.room_le
    exact ⟨.array values, nofun, .operand_array hopen hvalues⟩

theorem parameters_read {w : List TokenKind} (h : SeparatedBy (· = [.identifier]) w)
    {cursor rest : Cursor} (hspans : Spans Token.kind cursor rest (w ++ [.closeParen]))
    (hread : cursor.Readable) {bound : Nat} (hb : cursor.room ≤ bound) :
    ∃ names, Reads (Parser.parameters bound) cursor names rest := by
  obtain ⟨middle, hmiddle, hlast⟩ := spans_append hspans
  obtain ⟨hk, hnext⟩ := spans_cons hlast
  obtain rfl := spans_nil.mp hnext
  refine items_read (I := (· = [.identifier])) ?_ (by decide) ?_ h hmiddle hread hk hb
  · rintro w rfl cursor rest hspans - -
    obtain ⟨hk, hnext⟩ := spans_cons hspans
    obtain rfl := spans_nil.mp hnext
    exact ⟨_, .identifier hk⟩
  · rintro w rfl
    exact ⟨nofun, nofun⟩

theorem block_read {w : List TokenKind} (h : BlockReads w) {cursor rest : Cursor}
    (hspans : Spans Token.kind cursor rest (.openBrace :: w)) (hread : cursor.Readable)
    {bound : Nat} (hb : cursor.room ≤ bound) :
    ∃ body, Reads (Parser.block bound statement) cursor body rest := by
  obtain ⟨hopen, hnext⟩ := spans_cons hspans
  have hle := cursor.advance_within.room_le
  obtain ⟨body, hbody⟩ := h _ _ hnext (hread.within cursor.advance_within) bound (by omega)
  exact ⟨body, .block hopen hbody⟩

theorem blockReads_of {w : List TokenKind} (h : StatementsRead w) :
    BlockReads (w ++ [.closeBrace]) := by
  intro cursor rest hspans hread bound hb
  obtain ⟨middle, hmiddle, hlast⟩ := spans_append hspans
  obtain ⟨hk, hnext⟩ := spans_cons hlast
  obtain rfl := spans_nil.mp hnext
  obtain ⟨body, hbody⟩ := h.reads _ _ _ hmiddle hread (.inr rfl) hk bound hb
  exact ⟨body, .blockRest hbody hk⟩

-- Names between parentheses, and a block behind them.
theorem definition_read {w u : List TokenKind} (hw : SeparatedBy (· = [.identifier]) w)
    (hu : BlockReads u) {cursor rest : Cursor}
    (hspans : Spans Token.kind cursor rest (w ++ .closeParen :: .openBrace :: u))
    (hread : cursor.Readable) {bound : Nat} (hb : cursor.room ≤ bound) :
    ∃ names body middle, Reads (Parser.parameters bound) cursor names middle ∧
      Reads (Parser.block bound statement) middle body rest := by
  obtain ⟨middle, hmiddle, hlast⟩ := spans_closed hspans
  have hle := hmiddle.within.room_le
  have hbound : middle.room ≤ bound := by omega
  obtain ⟨names, hnames⟩ := parameters_read hw hmiddle hread hb
  obtain ⟨body, hbody⟩ := block_read hu hlast (hread.within hmiddle.within) hbound
  exact ⟨names, body, middle, hnames, hbody⟩

theorem atom_function {w u : List TokenKind} (hw : SeparatedBy (· = [.identifier]) w)
    (hu : BlockReads u) : Atom (.fnWord :: .openParen :: w ++ .closeParen :: .openBrace :: u) where
  begins := ⟨_, _, rfl, rfl, fun _ => rfl⟩
  reads := by
    intro cursor rest hspans hread _
    obtain ⟨hword, hparen⟩ := spans_cons hspans
    obtain ⟨hopen, hnext⟩ := spans_cons hparen
    have hwithin := cursor.advance.advance_within.trans cursor.advance_within
    obtain ⟨names, body, middle, hnames, hbody⟩ :=
      definition_read hw hu hnext (hread.within hwithin) hwithin.room_le
    exact ⟨.function names body, nofun, .operand_function hword hopen hnames hbody⟩

theorem suffixes_call {u v : List TokenKind} (hu : SeparatedBy (Chain .whole) u)
    (hv : Suffixes v) : Suffixes (.openParen :: u ++ .closeParen :: v) where
  begins := nofun
  reads := by
    intro cursor rest hspans hread left
    obtain ⟨hopen, hnext⟩ := spans_cons hspans
    obtain ⟨middle, hmiddle, hlast⟩ := spans_closed hnext
    have hwithin := cursor.advance_within
    obtain ⟨arguments, harguments⟩ :=
      separated_read hu (.inl rfl) hmiddle (hread.within hwithin) hwithin.room_le
    obtain ⟨value, hvalue⟩ := hv.reads middle rest hlast
      (hread.within (hmiddle.within.trans hwithin)) (.call left arguments)
    exact ⟨value, .call hopen harguments hvalue⟩

theorem suffixes_index {u v : List TokenKind} (hu : Chain .whole u) (hv : Suffixes v) :
    Suffixes (.openBracket :: u ++ .closeBracket :: v) where
  begins := nofun
  reads := by
    intro cursor rest hspans hread left
    obtain ⟨hopen, hnext⟩ := spans_cons hspans
    obtain ⟨middle, hmiddle, hlast⟩ := spans_closed hnext
    have hwithin := cursor.advance_within
    obtain ⟨position, inner, -, hposition, hclose, rfl⟩ :=
      hu.enclosed rfl hmiddle (hread.within hwithin)
    obtain ⟨value, hvalue⟩ := hv.reads _ rest hlast
      (hread.within (hmiddle.within.trans hwithin)) (.index left position)
    exact ⟨value, .index hopen hposition hclose hvalue⟩

-- An expression with the semicolon behind it, which may stand for its last primary.
theorem Chain.ended {ending : Ending} {w : List TokenKind} (h : Chain ending w)
    {cursor rest : Cursor} (hspans : Spans Token.kind cursor rest (w ++ [.semiColon]))
    (hread : cursor.Readable) :
    ∃ value middle, (w ≠ [] → value ≠ .missing) ∧ Reads (expression .lowest) cursor value middle ∧
      middle.current.kind = .semiColon ∧ middle.advance = rest := by
  obtain ⟨middle, hmiddle, hlast⟩ := spans_append hspans
  obtain ⟨hk, hnext⟩ := spans_cons hlast
  have hend : ends ending middle.current.kind := by
    rw [hk]
    cases ending <;> rfl
  obtain ⟨value, hvalue, hreads⟩ := h.reads hmiddle hread hend
  exact ⟨value, middle, hvalue, hreads, hk, spans_nil.mp hnext⟩

theorem statement_let {ending : Ending} {w : List TokenKind} (h : Chain ending w) (hw : w ≠ []) :
    StatementReads (.letWord :: .identifier :: .assign :: w ++ [.semiColon]) where
  begins := ⟨_, _, rfl, nofun, nofun, nofun⟩
  reads := by
    intro cursor rest hspans hread _
    obtain ⟨hword, hspans⟩ := spans_cons hspans
    obtain ⟨hname, hspans⟩ := spans_cons hspans
    obtain ⟨hmark, hspans⟩ := spans_cons hspans
    have hwithin := cursor.advance.advance.advance_within.trans
      (cursor.advance.advance_within.trans cursor.advance_within)
    obtain ⟨value, middle, hvalue, hreads, hlast, rfl⟩ := h.ended hspans (hread.within hwithin)
    exact ⟨_, .statement_let hword hname hmark hreads (hvalue hw) hlast⟩

theorem statement_return {ending : Ending} {w : List TokenKind} (h : Chain ending w) :
    StatementReads (.returnWord :: w ++ [.semiColon]) where
  begins := ⟨_, _, rfl, nofun, nofun, nofun⟩
  reads := by
    intro cursor rest hspans hread _
    obtain ⟨hword, hspans⟩ := spans_cons hspans
    obtain ⟨value, middle, -, hreads, hlast, rfl⟩ :=
      h.ended hspans (hread.within cursor.advance_within)
    exact ⟨_, .statement_return hword hreads hlast⟩

-- A condition in parentheses, and a block behind it.
theorem condition_read {w u : List TokenKind} (hw : Chain .whole w) (hu : BlockReads u)
    {cursor rest : Cursor}
    (hspans : Spans Token.kind cursor rest (.openParen :: w ++ .closeParen :: .openBrace :: u))
    (hread : cursor.Readable) {bound : Nat} (hb : cursor.room ≤ bound) :
    ∃ condition body middle,
      Reads (Parser.parenthesised (expression .lowest)) cursor condition middle ∧
        Reads (Parser.block bound statement) middle body rest := by
  obtain ⟨hopen, hspans⟩ := spans_cons hspans
  obtain ⟨middle, hmiddle, hlast⟩ := spans_closed hspans
  have hwithin := cursor.advance_within
  obtain ⟨condition, inner, -, hcondition, hclose, rfl⟩ :=
    hw.enclosed rfl hmiddle (hread.within hwithin)
  have hinner := hmiddle.within.trans hwithin
  have hle := hinner.room_le
  have hbound : inner.advance.room ≤ bound := by omega
  obtain ⟨body, hbody⟩ := block_read hu hlast (hread.within hinner) hbound
  exact ⟨condition, body, _, .parenthesised hopen hcondition hclose, hbody⟩

theorem statement_ifThen {w u : List TokenKind} (hw : Chain .whole w) (hu : BlockReads u) :
    StatementReads (.ifWord :: .openParen :: w ++ .closeParen :: .openBrace :: u) where
  begins := ⟨_, _, rfl, nofun, nofun, nofun⟩
  reads := by
    intro cursor rest hspans hread hnext
    obtain ⟨hword, hspans⟩ := spans_cons hspans
    have hwithin := cursor.advance_within
    obtain ⟨condition, body, middle, hcondition, hbody⟩ :=
      condition_read hw hu hspans (hread.within hwithin) hwithin.room_le
    exact ⟨_, .statement_ifThen hword hcondition hbody hnext⟩

theorem statement_ifElse {w u v : List TokenKind} (hw : Chain .whole w) (hu : BlockReads u)
    (hv : BlockReads v) :
    StatementReads (.ifWord :: .openParen :: w ++
      .closeParen :: (.openBrace :: u ++ .elseWord :: .openBrace :: v)) where
  begins := ⟨_, _, rfl, nofun, nofun, nofun⟩
  reads := by
    intro cursor rest hspans hread _
    have hsplit : .ifWord :: .openParen :: w ++
        .closeParen :: (.openBrace :: u ++ .elseWord :: .openBrace :: v) =
        .ifWord :: ((.openParen :: w ++ .closeParen :: .openBrace :: u) ++
          .elseWord :: .openBrace :: v) := by simp
    rw [hsplit] at hspans
    obtain ⟨hword, hspans⟩ := spans_cons hspans
    obtain ⟨last, hfirst, hspans⟩ := spans_append hspans
    obtain ⟨helse, hspans⟩ := spans_cons hspans
    have hwithin := cursor.advance_within
    obtain ⟨condition, body, middle, hcondition, hbody⟩ :=
      condition_read hw hu hfirst (hread.within hwithin) hwithin.room_le
    have hlast := last.advance_within.trans (hfirst.within.trans hwithin)
    obtain ⟨alternative, halternative⟩ :=
      block_read hv hspans (hread.within hlast) hlast.room_le
    exact ⟨_, .statement_ifElse hword hcondition hbody helse halternative⟩

theorem statement_while {w u : List TokenKind} (hw : Chain .whole w) (hu : BlockReads u) :
    StatementReads (.whileWord :: .openParen :: w ++ .closeParen :: .openBrace :: u) where
  begins := ⟨_, _, rfl, nofun, nofun, nofun⟩
  reads := by
    intro cursor rest hspans hread _
    obtain ⟨hword, hspans⟩ := spans_cons hspans
    have hwithin := cursor.advance_within
    obtain ⟨condition, body, middle, hcondition, hbody⟩ :=
      condition_read hw hu hspans (hread.within hwithin) hwithin.room_le
    exact ⟨_, .statement_while hword hcondition hbody⟩

theorem statement_block {w : List TokenKind} (h : BlockReads w) :
    StatementReads (.openBrace :: w) where
  begins := ⟨_, _, rfl, nofun, nofun, nofun⟩
  reads := by
    intro cursor rest hspans hread _
    obtain ⟨hopen, hspans⟩ := spans_cons hspans
    have hwithin := cursor.advance_within
    obtain ⟨body, hbody⟩ := h _ _ hspans (hread.within hwithin) _ hwithin.room_le
    exact ⟨_, .statement_block hopen hbody⟩

theorem statement_definition {w u : List TokenKind} (hw : SeparatedBy (· = [.identifier]) w)
    (hu : BlockReads u) :
    StatementReads
      (.fnWord :: .identifier :: .openParen :: w ++ .closeParen :: .openBrace :: u) where
  begins := ⟨_, _, rfl, nofun, nofun, nofun⟩
  reads := by
    intro cursor rest hspans hread _
    obtain ⟨hword, hspans⟩ := spans_cons hspans
    obtain ⟨hname, hspans⟩ := spans_cons hspans
    obtain ⟨hopen, hspans⟩ := spans_cons hspans
    have hwithin := cursor.advance.advance.advance_within.trans
      (cursor.advance.advance_within.trans cursor.advance_within)
    obtain ⟨names, body, middle, hnames, hbody⟩ :=
      definition_read hw hu hspans (hread.within hwithin) hwithin.room_le
    exact ⟨_, .statement_definition hword hname hopen hnames hbody⟩

theorem statement_expression {ending : Ending} {w : List TokenKind} (h : Chain ending w) :
    StatementReads (w ++ [.semiColon]) where
  begins := by
    obtain ⟨-, rfl⟩ | ⟨kind, rest, rfl, hkind, -⟩ := h.begins
    · exact ⟨_, _, rfl, by simp, by simp, by simp⟩
    · refine ⟨kind, _, rfl, ?_, ?_, ?_⟩ <;> rintro rfl <;> simp [beginsExpression] at hkind
  reads := by
    intro cursor rest hspans hread _
    obtain ⟨value, middle, -, hreads, hlast, rfl⟩ := h.ended hspans hread
    obtain ⟨-, rfl⟩ | ⟨kind, more, rfl, hkind, hfn⟩ := h.begins
    · obtain ⟨hk, -⟩ := spans_cons hspans
      exact ⟨_, .statement_expression (by rw [hk]; rfl) (by simp [hk]) hreads hlast⟩
    · obtain ⟨hk, hnext⟩ := spans_cons hspans
      refine ⟨_, .statement_expression ?_ ?_ hreads hlast⟩
      · rw [hk]
        exact beginsStatement_of_beginsExpression hkind
      · intro hword
        obtain ⟨tail, htail⟩ := List.head?_eq_some_iff.mp (hfn (hk.symm.trans hword))
        rw [htail] at hnext
        simp [(spans_cons hnext).1]

theorem statements_nil : StatementsRead [] where
  begins := nofun
  reads := by
    intro stop cursor rest hspans _ _ hend bound _
    obtain rfl := spans_nil.mp hspans
    exact ⟨[], .itemsUntil_nil (.inr hend)⟩

theorem statements_cons {u v : List TokenKind} (hu : StatementReads u) (hv : StatementsRead v) :
    StatementsRead (u ++ v) where
  begins := by
    obtain ⟨kind, more, rfl, -, -, helse⟩ := hu.begins
    simpa using helse
  reads := by
    intro stop cursor rest hspans hread hstop hend bound hb
    obtain ⟨middle, hmiddle, hnext⟩ := spans_append hspans
    have helse : middle.current.kind ≠ .elseWord := by
      rw [hnext.current_kind]
      cases hcases : v with
      | nil => obtain rfl | rfl := hstop <;> simp [hend]
      | cons kind v =>
          have hbegins := hv.begins
          simpa [hcases] using hbegins
    obtain ⟨stmt, hstmt⟩ := hu.reads _ _ hmiddle hread helse
    obtain ⟨kind, more, rfl, heof, hbrace, -⟩ := hu.begins
    obtain ⟨rfl, hmore⟩ := spans_cons hmiddle
    have hlt := Nat.lt_of_le_of_lt hmore.within.room_le (cursor.room_advance_lt heof)
    obtain ⟨bound, rfl⟩ : ∃ k, bound = k + 1 := ⟨bound - 1, by omega⟩
    obtain ⟨body, hbody⟩ := hv.reads stop middle rest hnext (hread.within hmiddle.within) hstop
      hend bound (by omega)
    refine ⟨stmt :: body, .itemsUntil_cons ?_ hstmt hbody⟩
    rintro (h | h)
    · exact heof h
    · obtain rfl | rfl := hstop
      · exact heof h
      · exact hbrace h

-- Each rule of the grammar keeps to what the parser accepts.
theorem accepts {nonterminal : Nonterminal} {w : List TokenKind} (h : Derives nonterminal w) :
    Accepts nonterminal w := by
  induction h with
  | program _ _ => exact trivial
  | noStatements => exact statements_nil
  | statements _ _ ihu ihv => exact statements_cons ihu ihv
  | letStatement _ hw ih => exact statement_let ih hw
  | returnStatement _ ih => exact statement_return ih
  | ifThen _ _ ihw ihu =>
      obtain ⟨u, rfl, hu⟩ := ihu
      exact statement_ifThen ihw hu
  | ifElse _ _ _ ihw ihu ihv =>
      obtain ⟨u, rfl, hu⟩ := ihu
      obtain ⟨v, rfl, hv⟩ := ihv
      exact statement_ifElse ihw hu hv
  | whileLoop _ _ ihw ihu =>
      obtain ⟨u, rfl, hu⟩ := ihu
      exact statement_while ihw hu
  | blockStatement _ ih =>
      obtain ⟨u, rfl, hu⟩ := ih
      exact statement_block hu
  | definition _ _ ihw ihu =>
      obtain ⟨u, rfl, hu⟩ := ihu
      exact statement_definition ihw hu
  | expressionStatement _ ih => exact statement_expression ih
  | block _ ih => exact ⟨_, rfl, blockReads_of ih⟩
  | name => exact rfl
  | noItems => exact .inl rfl
  | separated _ _ ihu ihv =>
      obtain ⟨ws, hws, rfl⟩ := ihv
      exact .inr ⟨_, ws, ihu, hws, rfl⟩
  | noFurther => exact ⟨[], nofun, rfl⟩
  | @further _ u _ _ _ ihu ihv =>
      obtain ⟨ws, hws, rfl⟩ := ihv
      exact ⟨u :: ws, List.forall_mem_cons.mpr ⟨ihu, hws⟩, rfl⟩
  | single _ ih => exact ih
  | binary _ hop _ ihu ihv => exact Chain.append ihu rfl hop ihv
  | unary hop _ ih => exact Chain.unary hop ih
  | primary _ _ ihu ihv =>
      obtain hu | ⟨v, rfl, hv⟩ := ihu
      · exact Chain.last hu ihv
      · exact Chain.assignment (hv.suffixes rfl ihv)
  | absent => exact Chain.absent
  | cutAssignment _ ih => exact Chain.assignment ih
  | noPostfix => exact suffixes_nil
  | call _ _ ihu ihv => exact suffixes_call ihu ihv
  | index _ _ ihu ihv => exact suffixes_index ihu ihv
  | integer => exact .inl atom_integer
  | float => exact .inl atom_float
  | string => exact .inl atom_string
  | trueWord => exact .inl atom_true
  | falseWord => exact .inl atom_false
  | identifier => exact .inl atom_identifier
  | assignment _ ih => exact .inr ⟨_, rfl, ih⟩
  | grouped _ ih => exact .inl (atom_grouped ih)
  | array _ ih => exact .inl (atom_array ih)
  | function _ _ ihw ihu =>
      obtain ⟨u, rfl, hu⟩ := ihu
      exact .inl (atom_function ihw hu)

end Acceptance

-- The parser has no objection to a source in the grammar whose integers fit, and to no other.
theorem parse_clean_iff_derives (source : String) :
    (parse source).diagnostics = [] ↔
      Derives .program ((tokenize source).map Token.kind) ∧
        ∀ token ∈ tokenize source, token.kind = .integer → token.decimal ≤ 2147483647 := by
  have htokens : tokenize source = (ofSource source).ahead ++ [(ofSource source).finish] := rfl
  have hlexed := ofSource_lexed source
  constructor
  · intro hclean
    have hspelled := parse_spelled hclean
    rw [htokens]
    refine ⟨?_, ?_⟩
    · rw [List.map_append]
      exact .program hspelled.derives
    · intro token hmem hk
      rw [List.mem_append, List.mem_singleton] at hmem
      obtain hmem | rfl := hmem
      · have hread := hspelled.integer_read token hmem hk
        rw [(hlexed token hmem).integer_read hk] at hread
        split at hread
        · omega
        · simp at hread
      · cases hk
  · rintro ⟨hderives, hsmall⟩
    rw [htokens] at hderives hsmall
    generalize hkinds : ((ofSource source).ahead ++ [(ofSource source).finish]).map Token.kind =
      kinds at hderives
    cases hderives with
    | program hstatements =>
        rw [List.map_append] at hkinds
        obtain rfl := List.append_inj_left' hkinds rfl
        have hread : (ofSource source).Readable := by
          intro token hmem
          refine ⟨fun hk => ?_, fun hk => ?_⟩
          · have hle := hsmall token (List.mem_append_left _ hmem) hk
            rw [(hlexed token hmem).integer_read hk, if_pos (by omega)]
            rfl
          · obtain ⟨bits, -, hbits⟩ := (hlexed token hmem).float_read hk
            rw [hbits]
            rfl
        have hspans : Spans Token.kind (ofSource source) ⟨[], (ofSource source).stop⟩
            ((ofSource source).ahead.map Token.kind) :=
          ⟨rfl, (ofSource source).ahead, (List.append_nil _).symm, rfl⟩
        obtain ⟨body, hbody⟩ := (Acceptance.accepts hstatements).reads .eof _ _ hspans hread
          (.inl rfl) rfl _ (Nat.le_refl _)
        rw [Reads, ← parse_eq (Nat.le_refl _)] at hbody
        simp [Capuchin.parse, hbody]

end Capuchin
