import Capuchin.Proofs.Syntax.Reads
import Capuchin.Proofs.Token.Seams

-- What is read without an objection is read in the same way if more tokens stand behind it.
namespace Capuchin

namespace Cursor

variable {cursor : Cursor} (later : Cursor)

theorem current_onto (h : cursor.ahead ≠ []) : (cursor.onto later).current = cursor.current := by
  obtain ⟨token, rest, hahead⟩ := List.exists_cons_of_ne_nil h
  simp [current, onto, hahead]

theorem advance_onto (h : cursor.ahead ≠ []) :
    (cursor.onto later).advance = cursor.advance.onto later := by
  obtain ⟨token, rest, hahead⟩ := List.exists_cons_of_ne_nil h
  simp [advance, onto, hahead]

theorem room_le_onto : cursor.room ≤ (cursor.onto later).room := by
  rw [room, room, onto, List.length_append]
  exact Nat.le_add_right _ _

theorem onto_of_nil (h : cursor.ahead = []) : cursor.onto later = later := by
  rw [onto, h, List.nil_append]

theorem Within.ahead_ne_nil {rest : Cursor} (h : rest.Within cursor) (hne : rest.ahead ≠ []) :
    cursor.ahead ≠ [] := by
  intro hnil
  rw [Within, hnil, List.suffix_nil] at h
  exact hne h.2

end Cursor

namespace Reader

namespace Reads

variable {cursor rest : Cursor} {reader : Reader α}

theorem of_bind {next : α → Reader β} {value : β} (h : Reads (reader >>= next) cursor value rest) :
    ∃ first middle, Reads reader cursor first middle ∧ Reads (next first) middle value rest := by
  rw [Reads, Reader.bind_apply, Reading.mk.injEq, List.append_eq_nil_iff] at h
  obtain ⟨hvalue, hrest, hfirst, hnext⟩ := h
  refine ⟨(reader cursor).value, (reader cursor).rest, ?_, ?_⟩
  · rw [Reads, ← hfirst]
  · rw [Reads, ← hvalue, ← hrest, ← hnext]

theorem of_map {f : α → β} {value : β} (h : Reads (f <$> reader) cursor value rest) :
    ∃ first, f first = value ∧ Reads reader cursor first rest := by
  rw [Reads, map_apply, Reading.mk.injEq] at h
  obtain ⟨hvalue, hrest, hdiagnostics⟩ := h
  refine ⟨(reader cursor).value, hvalue, ?_⟩
  rw [Reads, ← hrest, ← hdiagnostics]

-- What `expect` does not object to is there.
theorem current_of_expect {kind : TokenKind} (h : Reads (Reader.expect kind) cursor () rest) :
    cursor.current.kind = kind ∧ rest = cursor.advance := by
  by_cases hk : cursor.current.kind = kind
  · rw [Reads, Reader.expect, current_bind_apply, if_pos hk, Reading.mk.injEq] at h
    exact ⟨hk, h.2.1.symm⟩
  · simp [Reads, Reader.expect, hk] at h

theorem ahead_of_expect {kind : TokenKind} (hk : kind ≠ .eof)
    (h : Reads (Reader.expect kind) cursor () rest) : cursor.ahead ≠ [] :=
  Cursor.ahead_ne_nil (by rw [h.current_of_expect.1]; exact hk)

theorem ahead_of_before {close : TokenKind} {value : α} (hk : close ≠ .eof) (hs : Stays reader)
    (h : Reads (Reader.before close reader) cursor value rest) : cursor.ahead ≠ [] := by
  obtain ⟨first, middle, hfirst, hclose⟩ := h.of_bind
  obtain ⟨_, _, hexpect, -⟩ := hclose.of_bind
  have hwithin := hs cursor
  rw [hfirst] at hwithin
  exact hwithin.ahead_ne_nil (hexpect.ahead_of_expect hk)

end Reads

-- Reading goes on in the same way in front of more tokens. If the reader may look at the token
-- behind those it takes, there has to be one.
def Extends (past : Prop) (later : Cursor) (reader : Reader α) (cursor : Cursor) : Prop :=
  ∀ value rest, Reads reader cursor value rest → past ∨ rest.ahead ≠ [] →
    Reads reader (cursor.onto later) value (rest.onto later)

-- A reader that looks at the token behind those it takes.
def Inner (later : Cursor) (reader : Reader α) : Prop := ∀ cursor, Extends False later reader cursor

-- A reader that sees no token but those it takes.
def Local (later : Cursor) (reader : Reader α) : Prop := ∀ cursor, Extends True later reader cursor

namespace Extends

variable {past : Prop} {later cursor : Cursor} {reader : Reader α}

theorem pure (value : α) : Extends past later (pure value) cursor := by
  intro other rest h _
  obtain ⟨rfl, rfl⟩ : value = other ∧ cursor = rest := by simpa [Reads] using h
  exact .pure

theorem bind {next : α → Reader β} (h : Extends True later reader cursor)
    (hn : ∀ value rest, Extends past later (next value) rest) :
    Extends past later (reader >>= next) cursor := by
  intro value rest hreads hpast
  obtain ⟨first, middle, hfirst, hnext⟩ := hreads.of_bind
  exact (h first middle hfirst (.inl trivial)).bind (hn first middle value rest hnext hpast)

-- The token behind the first reading is there if the second one does not do without.
theorem inner_bind {next : α → Reader β} (h : Extends False later reader cursor)
    (hne : ∀ first middle value rest, Reads (next first) middle value rest →
      past ∨ rest.ahead ≠ [] → middle.ahead ≠ [])
    (hn : ∀ value rest, Extends past later (next value) rest) :
    Extends past later (reader >>= next) cursor := by
  intro value rest hreads hpast
  obtain ⟨first, middle, hfirst, hnext⟩ := hreads.of_bind
  have hmiddle := hne first middle value rest hnext hpast
  exact (h first middle hfirst (.inr hmiddle)).bind (hn first middle value rest hnext hpast)

theorem map (f : α → β) (h : Extends past later reader cursor) :
    Extends past later (f <$> reader) cursor := by
  intro value rest hreads hpast
  obtain ⟨first, rfl, hfirst⟩ := hreads.of_map
  exact (h first rest hfirst hpast).map f

-- Where the reader may look past the end of what it takes, it may look at the current token.
theorem of_ahead (hs : Stays reader) (h : cursor.ahead ≠ [] → Extends False later reader cursor) :
    Extends False later reader cursor := by
  intro value rest hreads hpast
  obtain hfalse | hrest := hpast
  · exact hfalse.elim
  · have hwithin := hs cursor
    rw [hreads] at hwithin
    exact h (hwithin.ahead_ne_nil hrest) value rest hreads (.inr hrest)

-- Nothing is to be shown of what is objected to.
theorem of_reads
    (h : ∀ value rest, Reads reader cursor value rest → Extends past later reader cursor) :
    Extends past later reader cursor :=
  fun value rest hreads => h value rest hreads value rest hreads

theorem weaken (h : Extends True later reader cursor) : Extends past later reader cursor :=
  fun value rest hreads _ => h value rest hreads (.inl trivial)

theorem of_not (hpast : ¬past) (h : Extends False later reader cursor) :
    Extends past later reader cursor :=
  fun value rest hreads hp => h value rest hreads (.inr (hp.resolve_left hpast))

-- Readers that agree in front of that many tokens go on in the same way.
theorem of_agrees {other : Reader α} (ha : AgreeBelow ((cursor.onto later).room + 1) other reader)
    (h : Extends past later other cursor) : Extends past later reader cursor := by
  have hle := cursor.room_le_onto later
  have hhere : other cursor = reader cursor := ha cursor (by omega)
  have hthere : other (cursor.onto later) = reader (cursor.onto later) := ha _ (by omega)
  intro value rest hreads hpast
  rw [Reads, ← hhere] at hreads
  rw [Reads, ← hthere]
  exact h value rest hreads hpast

section Tokens

variable (hc : cursor.ahead ≠ [])

include hc in
theorem current_bind {next : Token → Reader α}
    (hn : Extends past later (next cursor.current) cursor) :
    Extends past later (current >>= next) cursor := by
  intro value rest hreads hpast
  rw [Reads.current_bind, Cursor.current_onto later hc]
  exact hn value rest hreads hpast

-- A reader that does without the token behind the current one may look at it.
theorem following_bind {next : Token → Reader α}
    (heq : next (cursor.onto later).following = next cursor.following)
    (hn : Extends past later (next cursor.following) cursor) :
    Extends past later (following >>= next) cursor := by
  intro value rest hreads hpast
  rw [Reads.following_bind, heq]
  exact hn value rest hreads hpast

include hc in
theorem isAt_bind {kind : TokenKind} {next : Bool → Reader α}
    (hn : Extends past later (next (cursor.current.kind = kind)) cursor) :
    Extends past later (isAt kind >>= next) cursor := by
  intro value rest hreads hpast
  rw [Reads.isAt_bind, Cursor.current_onto later hc]
  exact hn value rest hreads hpast

include hc in
theorem advance_bind {next : Token → Reader α}
    (hn : Extends past later (next cursor.current) cursor.advance) :
    Extends past later (advance >>= next) cursor := by
  intro value rest hreads hpast
  rw [Reads.advance_bind, Cursor.current_onto later hc, Cursor.advance_onto later hc]
  exact hn value rest hreads hpast

end Tokens

-- If no token of a kind stands behind, the reader may look for one at the end too.
theorem isAt_bind_of_ne {kind : TokenKind} {next : Bool → Reader α} (hk : kind ≠ .eof)
    (hlater : later.current.kind ≠ kind)
    (hyes : cursor.ahead ≠ [] → Extends past later (next true) cursor)
    (hno : Extends past later (next false) cursor) :
    Extends past later (isAt kind >>= next) cursor := by
  by_cases hc : cursor.ahead = []
  · intro value rest hreads hpast
    have hcurrent : cursor.current.kind ≠ kind := by
      simp [Cursor.current, hc, Cursor.finish, hk.symm]
    rw [Reads.isAt_bind, decide_eq_false hcurrent] at hreads
    have hother := hno value rest hreads hpast
    rw [Cursor.onto_of_nil later hc] at hother ⊢
    rw [Reads.isAt_bind, decide_eq_false hlater]
    exact hother
  · apply isAt_bind hc
    by_cases hkind : cursor.current.kind = kind
    · rw [decide_eq_true hkind]
      exact hyes hc
    · rw [decide_eq_false hkind]
      exact hno

theorem report_bind {diagnostic : Diagnostic} {next : Unit → Reader α} :
    Extends past later (report diagnostic >>= next) cursor := by
  intro value rest hreads
  simp [Reads] at hreads

end Extends

namespace Inner

variable {later cursor : Cursor} {reader : Reader α}

theorem bind {next : α → Reader β} (h : Extends False later reader cursor)
    (hs : ∀ value, Stays (next value)) (hn : ∀ value, Inner later (next value)) :
    Extends False later (reader >>= next) cursor := by
  refine h.inner_bind (fun first middle value rest hreads hpast => ?_) fun value => hn value
  have hwithin := hs first middle
  rw [hreads] at hwithin
  exact hwithin.ahead_ne_nil (hpast.resolve_left id)

end Inner

theorem Local.expect {later : Cursor} {kind : TokenKind} (hk : kind ≠ .eof) :
    Local later (expect kind) := by
  intro cursor value rest hreads _
  obtain ⟨hkind, rfl⟩ := hreads.current_of_expect
  have hc := hreads.ahead_of_expect hk
  rw [← Cursor.advance_onto later hc]
  apply Reads.expect
  rw [Cursor.current_onto later hc, hkind]

section Lists

variable {later : Cursor} {item : Reader α} (hi : Inner later item) (hs : Stays item)

include hi in
theorem Inner.before {close : TokenKind} (hk : close ≠ .eof) : Local later (before close item) := by
  intro cursor
  refine (hi cursor).inner_bind (fun _ _ _ _ hreads _ => ?_) fun value rest =>
    (Local.expect hk rest).bind fun _ _ => .pure _
  obtain ⟨_, _, hexpect, -⟩ := hreads.of_bind
  exact hexpect.ahead_of_expect hk

include hi hs in
theorem Inner.moreItems (bound : Nat) : Inner later (moreItems item bound) := by
  induction bound with
  | zero => exact fun _ => .pure []
  | succ bound ih =>
      intro cursor
      refine .of_ahead (hs.moreItems _) fun hc => ?_
      rw [Reader.moreItems]
      apply Extends.isAt_bind hc
      split
      · refine .advance_bind hc (Inner.bind (hi _) (fun _ => ?_) fun _ rest => ?_)
        · exact (hs.moreItems bound).bind fun _ => .pure _
        · exact Inner.bind (ih rest) (fun _ => .pure _) fun _ _ => .pure _
      · exact .pure []

include hi hs in
theorem Inner.items (bound : Nat) {close : TokenKind} (hk : close ≠ .eof) :
    Local later (items bound close item) := by
  have hfirst : Inner later (do
      let first ← item
      return first :: (← Reader.moreItems item bound)) :=
    fun cursor => Inner.bind (hi cursor) (fun _ => (hs.moreItems bound).bind fun _ => .pure _)
      fun _ rest => Inner.bind (hi.moreItems hs bound rest) (fun _ => .pure _) fun _ _ => .pure _
  have hfirstStays : Stays (do
      let first ← item
      return first :: (← Reader.moreItems item bound)) :=
    hs.bind fun _ => (hs.moreItems bound).bind fun _ => .pure _
  intro cursor
  refine .of_reads fun value rest hreads => ?_
  by_cases hclose : cursor.current.kind = close
  · have hc : cursor.ahead ≠ [] := Cursor.ahead_ne_nil (by rw [hclose]; exact hk)
    apply Extends.isAt_bind hc
    simp only [hclose, decide_true, if_true]
    exact .advance_bind hc (.pure [])
  · rw [Reader.items, Reads.isAt_bind] at hreads
    simp only [hclose, decide_false, Bool.false_eq_true, if_false] at hreads
    apply Extends.isAt_bind (hreads.ahead_of_before hk hfirstStays)
    simp only [hclose, decide_false, Bool.false_eq_true, if_false]
    exact hfirst.before hk cursor

-- Items that look no further are told apart by the tokens they begin with.
theorem Local.itemsUntil {later : Cursor} {item : Reader α} (hi : Local later item)
    (hs : Stays item) (stop : TokenKind) (bound : Nat) :
    Inner later (itemsUntil stop item bound) := by
  induction bound with
  | zero => exact fun _ => .pure []
  | succ bound ih =>
      intro cursor
      refine .of_ahead (hs.itemsUntil _ _) fun hc => ?_
      rw [Reader.itemsUntil]
      apply Extends.current_bind hc
      dsimp only
      split
      · exact .pure []
      · exact (hi cursor).bind fun _ rest =>
          Inner.bind (ih rest) (fun _ => .pure _) fun _ _ => .pure _

end Lists

end Reader

namespace Parser

open Reader

variable {later : Cursor}

theorem identifier_local : Local later identifier := by
  intro cursor
  refine .of_reads fun value rest hreads => ?_
  have hc : cursor.ahead ≠ [] := by
    intro hnil
    simp [Reads, identifier, Cursor.current, hnil, Cursor.finish] at hreads
  rw [identifier]
  apply Extends.current_bind hc
  split
  · exact .advance_bind hc (.pure _)
  · exact .report_bind
  · exact .report_bind

theorem parameters_local (bound : Nat) : Local later (parameters bound) :=
  Inner.items (fun cursor => (identifier_local cursor).weaken) identifier_stays bound (by simp)

theorem literal_extends {past : Prop} {cursor : Cursor} (token : Token) (value : Option Expr) :
    Extends past later (literal token value) cursor := by
  cases value with
  | some expr => exact .pure expr
  | none => exact .report_bind

section Parts

variable {whole : Reader Expr} {above : Precedence → Reader Expr} {statement : Reader Stmt}
  (hw : Inner later whole) (hws : Stays whole)
  (ha : ∀ floor, Inner later (above floor)) (has : ∀ floor, Stays (above floor))
  (hs : Local later statement) (hss : Stays statement) (bound : Nat)

include hw in
theorem parenthesised_local : Local later (parenthesised whole) :=
  fun cursor => (Local.expect (by simp) cursor).bind fun _ => hw.before (by simp)

include hs hss in
theorem blockRest_local : Local later (blockRest bound statement) :=
  (hs.itemsUntil hss _ bound).before (by simp)

include hs hss in
theorem block_local : Local later (block bound statement) :=
  fun cursor => (Local.expect (by simp) cursor).bind fun _ => blockRest_local hs hss bound

section Tokens

variable {past : Prop} {cursor : Cursor} (hc : cursor.ahead ≠ [])

include ha hc in
theorem binary_extends (op : BinaryOp) (left : Expr) :
    Extends False later (binary above op left) cursor :=
  .advance_bind hc (Inner.bind (ha _ _) (fun _ => .pure _) fun _ _ => .pure _)

include hw hws hc in
theorem call_extends (callee : Expr) : Extends False later (call whole bound callee) cursor :=
  .advance_bind hc (((hw.items hws bound (by simp) _).bind fun _ _ => .pure _).weaken)

include hw hc in
theorem index_extends (array : Expr) : Extends False later (index whole array) cursor :=
  .advance_bind hc (((hw.before (by simp) _).bind fun _ _ => .pure _).weaken)

include hw hws hc in
theorem nameOrAssignment_extends : Extends False later (nameOrAssignment whole) cursor := by
  refine .advance_bind hc (.of_ahead ?_ fun hnext => .isAt_bind hnext ?_)
  · exact .bind (.isAt _) fun _ =>
      .ite (.bind .advance fun _ => .bind hws fun _ => .pure _) (.pure _)
  · split
    · exact .advance_bind hnext (Inner.bind (hw _) (fun _ => .pure _) fun _ _ => .pure _)
    · exact .pure _

include hw hc in
theorem grouped_extends : Extends past later (grouped whole) cursor :=
  .advance_bind hc (hw.before (by simp) _).weaken

include hw hws hc in
theorem arrayLiteral_extends : Extends past later (arrayLiteral whole bound) cursor :=
  .advance_bind hc (((hw.items hws bound (by simp) _).bind fun _ _ => .pure _).weaken)

include hs hss hc in
theorem functionLiteral_extends : Extends past later (functionLiteral bound statement) cursor :=
  .advance_bind hc <| .weaken <| (Local.expect (by simp) _).bind fun _ _ =>
    (parameters_local bound _).bind fun _ _ => (block_local hs hss bound _).bind fun _ _ => .pure _

include ha hc in
theorem unary_extends (op : UnaryOp) : Extends False later (unary above op) cursor :=
  .advance_bind hc (Inner.bind (ha _ _) (fun _ => .pure _) fun _ _ => .pure _)

end Tokens

-- A name and an operator in front of an operand are the operands that end with what follows.
include ha has hs hss in
theorem operandWith_extends {past : Prop} {cursor : Cursor} (hc : cursor.ahead ≠ [])
    (hpast : past → cursor.current.kind ≠ .identifier ∧
      UnaryOp.ofToken? cursor.current.kind = none) :
    Extends past later (operandWith above bound statement) cursor := by
  rw [operandWith]
  apply Extends.current_bind hc
  split
  · exact .report_bind
  · exact .pure none
  · exact .advance_bind hc (.map _ (literal_extends _ _))
  · exact .advance_bind hc (.map _ (literal_extends _ _))
  · exact .advance_bind hc (.pure _)
  · exact .advance_bind hc (.pure _)
  · exact .advance_bind hc (.pure _)
  · rename_i hk
    exact .map _ (.of_not (fun h => (hpast h).1 hk)
      (nameOrAssignment_extends (ha _) (has _) hc))
  · exact .map _ (grouped_extends (ha _) hc)
  · exact .map _ (arrayLiteral_extends (ha _) (has _) bound hc)
  · exact .map _ (functionLiteral_extends hs hss bound hc)
  · split
    · rename_i hop
      refine .map _ (.of_not (fun h => ?_) (unary_extends ha hc _))
      rw [(hpast h).2] at hop
      contradiction
    · exact .report_bind

include ha has hs hss in
theorem operandWith_inner : Inner later (operandWith above bound statement) := fun _ =>
  .of_ahead (operandWith_stays has hss bound) fun hc =>
    operandWith_extends ha has hs hss bound hc False.elim

include ha has in
theorem operatorsWith_inner {operators : Expr → Reader Expr}
    (ho : ∀ left, Inner later (operators left)) (hos : ∀ left, Stays (operators left))
    (floor : Precedence) (left : Expr) :
    Inner later (operatorsWith above bound operators floor left) := by
  intro cursor
  refine .of_ahead (operatorsWith_stays has bound hos floor left) fun hc => ?_
  rw [operatorsWith]
  apply Extends.current_bind hc
  dsimp only
  split
  · exact .pure left
  · split
    · exact Inner.bind (binary_extends ha hc _ _) hos ho
    · exact Inner.bind (call_extends (ha _) (has _) bound hc _) hos ho
    · exact Inner.bind (index_extends (ha _) hc _) hos ho
    · exact .pure left

theorem expressionWith_inner {operand : Reader (Option Expr)} {operators : Expr → Reader Expr}
    (hd : Inner later operand) (ho : ∀ left, Inner later (operators left))
    (hos : ∀ left, Stays (operators left)) :
    Inner later (expressionWith operand operators) := by
  intro cursor
  refine Inner.bind (hd cursor) (fun left => ?_) fun left => ?_
  · split
    · exact .pure _
    · exact hos _
  · split
    · exact fun _ => .pure _
    · exact ho _

section Statements

variable {cursor : Cursor} (hc : cursor.ahead ≠ [])

include hw hc in
theorem letStatement_extends : Extends True later (letStatement whole) cursor := by
  refine .advance_bind hc ((identifier_local _).bind fun name _ =>
    (Local.expect (by simp) _).bind fun _ middle => (hw middle).inner_bind ?_ ?_)
  · intro value last stmt rest hreads _
    split at hreads
    · simp [Reads] at hreads
    · obtain ⟨_, _, hexpect, -⟩ := hreads.of_bind
      exact hexpect.ahead_of_expect (by simp)
  · intro value last
    split
    · exact .of_reads fun _ _ hreads => by simp [Reads] at hreads
    · exact (Local.expect (by simp) _).bind fun _ _ => .pure _

include hw hc in
theorem returnStatement_extends : Extends True later (returnStatement whole) cursor :=
  .advance_bind hc ((hw.before (by simp) _).bind fun _ _ => .pure _)

-- Only a conditional looks at what stands behind it.
include hw hs hss hc in
theorem ifStatement_extends (hlater : later.current.kind ≠ .elseWord) :
    Extends True later (ifStatement whole bound statement) cursor := by
  refine .advance_bind hc ((parenthesised_local hw _).bind fun _ _ =>
    (block_local hs hss bound _).bind fun _ rest => .isAt_bind_of_ne (by simp) hlater ?_ (.pure _))
  exact fun hrest => .advance_bind hrest ((block_local hs hss bound _).bind fun _ _ => .pure _)

include hw hs hss hc in
theorem whileStatement_extends : Extends True later (whileStatement whole bound statement) cursor :=
  .advance_bind hc ((parenthesised_local hw _).bind fun _ _ =>
    (block_local hs hss bound _).bind fun _ _ => .pure _)

include hs hss hc in
theorem blockStatement_extends : Extends True later (blockStatement bound statement) cursor :=
  .advance_bind hc ((blockRest_local hs hss bound _).bind fun _ _ => .pure _)

include hs hss hc in
theorem definition_extends (hname : cursor.following.kind = .identifier) :
    Extends True later (definition bound statement) cursor := by
  have hnext : cursor.advance.ahead ≠ [] :=
    Cursor.ahead_ne_nil (by rw [← Cursor.following, hname]; simp)
  exact .advance_bind hc (.advance_bind hnext ((Local.expect (by simp) _).bind fun _ _ =>
    (parameters_local bound _).bind fun _ _ =>
      (block_local hs hss bound _).bind fun _ _ => .pure _))

include hw in
theorem expressionStatement_local : Local later (expressionStatement whole) :=
  fun cursor => (hw.before (by simp) cursor).bind fun _ _ => .pure _

end Statements

include hws in
theorem statementWith_ahead {cursor rest : Cursor} {stmt : Stmt}
    (h : Reads (statementWith whole bound statement) cursor stmt rest) : cursor.ahead ≠ [] := by
  by_cases hk : cursor.current.kind = .eof
  · rw [statementWith, Reads.current_bind, Reads.following_bind] at h
    simp only [hk] at h
    obtain ⟨_, _, hbefore, -⟩ := h.of_bind
    exact hbefore.ahead_of_before (by simp) hws
  · exact Cursor.ahead_ne_nil hk

-- The word that begins functions is not read on its own.
include hw hws hs hss in
theorem statementWith_local (hlater : later.current.kind ≠ .elseWord)
    (hlone : ∀ (cursor : Cursor) value rest, cursor.current.kind = .fnWord →
      cursor.advance.ahead = [] → Reads whole cursor value rest → rest = cursor) :
    Local later (statementWith whole bound statement) := by
  intro cursor
  refine .of_reads fun stmt rest hreads => ?_
  have hc := statementWith_ahead hws bound hreads
  have hfollowing : cursor.current.kind = .fnWord →
      (cursor.onto later).following = cursor.following := by
    intro hk
    have hnext : cursor.advance.ahead ≠ [] := by
      intro hnil
      have hend : cursor.following.kind = .eof := by
        simp [Cursor.following, Cursor.current, hnil, Cursor.finish]
      rw [statementWith, Reads.current_bind, Reads.following_bind] at hreads
      simp only [hk, hend] at hreads
      obtain ⟨_, _, hbefore, -⟩ := hreads.of_bind
      obtain ⟨value, middle, hvalue, hclose⟩ := hbefore.of_bind
      obtain ⟨_, _, hexpect, -⟩ := hclose.of_bind
      have hlast := hexpect.current_of_expect.1
      rw [hlone cursor value middle hk hnil hvalue, hk] at hlast
      contradiction
    rw [Cursor.following, Cursor.advance_onto later hc, Cursor.current_onto later hnext,
      Cursor.following]
  rw [statementWith]
  apply Extends.current_bind hc
  apply Extends.following_bind
  · by_cases hk : cursor.current.kind = .fnWord
    · rw [hfollowing hk]
    · cases hkind : cursor.current.kind <;> first | rfl | contradiction
  · split
    · exact letStatement_extends hw hc
    · exact returnStatement_extends hw hc
    · exact ifStatement_extends hw hs hss bound hc hlater
    · exact whileStatement_extends hw hs hss bound hc
    · exact blockStatement_extends hs hss bound hc
    · exact definition_extends hs hss bound hc ‹_›
    · exact expressionStatement_local hw cursor

end Parts

theorem expression_lone {fuel : Nat} {floor : Precedence} {cursor rest : Cursor} {value : Expr}
    (hk : cursor.current.kind = .fnWord) (hnil : cursor.advance.ahead = [])
    (h : Reads (expression fuel floor) cursor value rest) : rest = cursor := by
  have hend : cursor.advance.current.kind ≠ .openParen := by
    simp [Cursor.current, hnil, Cursor.finish]
  rcases fuel with _ | _ | fuel
  · simp only [Reads, expression, pure_apply, Reading.mk.injEq] at h
    exact h.2.1.symm
  · simp only [Reads, expression, expressionWith, operand, pure_bind, pure_apply,
      Reading.mk.injEq] at h
    exact h.2.1.symm
  · -- The parenthesis behind the word is not there.
    obtain ⟨left, middle, hleft, -⟩ := h.of_bind
    simp [Reads, operand, operandWith, hk, functionLiteral, expect, hend] at hleft

theorem locals (hlater : later.current.kind ≠ .elseWord) (fuel : Nat) :
    (∀ floor, Inner later (expression fuel floor)) ∧
      (∀ floor left, Inner later (operators fuel floor left)) ∧
      Inner later (operand fuel) ∧ Local later (statement fuel) := by
  induction fuel with
  | zero => exact ⟨fun _ _ => .pure _, fun _ _ _ => .pure _, fun _ => .pure _, fun _ => .pure _⟩
  | succ fuel ih =>
      obtain ⟨he, ho, hd, hs⟩ := ih
      have hes := expression_stays fuel
      have hos := operators_stays fuel
      have hss := statement_stays fuel
      exact ⟨fun floor => expressionWith_inner hd (ho floor) (hos floor),
        fun floor => operatorsWith_inner he hes fuel (ho floor) (hos floor) floor,
        operandWith_inner he hes hs hss fuel,
        statementWith_local (he _) (hes _) hs hss fuel hlater fun _ _ _ => expression_lone⟩

end Parser

namespace Reader

variable {later : Cursor} (hlater : later.current.kind ≠ .elseWord)

include hlater in
theorem statement_local : Local later statement := fun cursor =>
  .of_agrees (statement_agrees (Nat.le_refl _)) ((Parser.locals hlater _).2.2.2 cursor)

include hlater in
theorem expression_inner (floor : Precedence) : Inner later (expression floor) := fun cursor =>
  .of_agrees (expression_agrees floor (Nat.le_succ _)) ((Parser.locals hlater _).1 floor cursor)

include hlater in
theorem operand_extends {past : Prop} {cursor : Cursor} (hc : cursor.ahead ≠ [])
    (hpast : past → cursor.current.kind ≠ .identifier ∧
      UnaryOp.ofToken? cursor.current.kind = none) : Extends past later operand cursor := by
  intro value rest hreads hp
  rw [Reads, operand_apply (cursor.room_le_onto later)] at hreads
  rw [Reads, operand_apply (Nat.le_refl _)]
  exact Parser.operandWith_extends (expression_inner hlater) expression_stays
    (statement_local hlater) statement_stays _ hc hpast value rest hreads hp

end Reader

end Capuchin
