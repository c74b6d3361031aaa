import Pseudocode.Proofs.ReaderSound
import Pseudocode.Proofs.Sign

/-!
# The shape of programs

What the tokens of a text carry, and the shape that this gives to the trees built of them. Every rule of the
grammar keeps the shape (`shaped_build`), so every program that is read has it (`readProgram_shaped`): tests are
comparisons, operators have the operands that they take, and texts are string literals with their quotes.
-/

namespace Pseudocode

/-! ## String literals -/

/-- What stands between the quotes of a string literal: a backslash goes with the character behind it, and no
other character is a quote. No line ends. -/
inductive Quotable : List Char → Prop
  | nil : Quotable []
  | plain {c : Char} {cs : List Char} (hq : c ≠ '"') (hb : c ≠ '\\') (hn : c ≠ '\n') (h : Quotable cs) :
      Quotable (c :: cs)
  | escaped {c : Char} {cs : List Char} (hn : c ≠ '\n') (h : Quotable cs) : Quotable ('\\' :: c :: cs)

/-- The text of a string literal, with its quotes. -/
def IsLiteral (s : String) : Prop :=
  ∃ cs, Quotable cs ∧ s.toList = '"' :: (cs ++ ['"'])

theorem Quotable.append {cs ds : List Char} (h : Quotable cs) (h' : Quotable ds) : Quotable (cs ++ ds) := by
  induction h with
  | nil => exact h'
  | plain hq hb hn _ ih => exact .plain hq hb hn ih
  | escaped hn _ ih => exact .escaped hn ih

namespace Piece

theorem quotable_stringBody {cs body rest : List Char} (h : stringBody cs = some (body, rest)) :
    ∃ ds, Quotable ds ∧ body = ds ++ ['"'] := by
  fun_induction stringBody cs generalizing body rest with
  | case2 r => cases h; exact ⟨[], .nil, rfl⟩
  | case6 c more hc ih =>
    obtain ⟨⟨b, a⟩, hb, he⟩ := Option.map_eq_some_iff.1 h
    cases he
    obtain ⟨ds, hd, rfl⟩ := ih hb
    exact ⟨'\\' :: c :: ds, .escaped hc hd, rfl⟩
  | case7 c r hq hn hb ih =>
    obtain ⟨⟨b, a⟩, hs, he⟩ := Option.map_eq_some_iff.1 h
    cases he
    obtain ⟨ds, hd, rfl⟩ := ih hs
    exact ⟨c :: ds, .plain hq hb hn hd, rfl⟩
  | _ => cases h

end Piece

/-! ## What tokens carry -/

/-- One or more line ends. -/
def IsLineEnds (s : String) : Prop :=
  s ≠ "" ∧ ∀ c ∈ s.toList, c = '\n'

/-- The values that a kind of token can have. -/
def TokenKind.Carries : TokenKind → Tree → Prop
  | .string, v => ∃ s, v = .text s ∧ IsLiteral s
  | .number, v => (∃ n : Nat, v = .int n) ∨ ∃ x : Float, 0.0 ≤ x ∧ v = .float x
  | .plus, v => v = .text "+"
  | .minus, v => v = .text "-"
  | .times, v => v = .text "*"
  | .divide, v => v = .text "/"
  | .comparison, v => ∃ op, v = .text op ∧ Tree.isComparing op
  | .newline, v => ∃ s, v = .text s ∧ IsLineEnds s
  | _, _ => True

/-- The texts that a kind of piece can have. -/
def PieceKind.Covers : PieceKind → List Char → Prop
  | .word, cs => cs ≠ [] ∧ ∀ c ∈ cs, Piece.inWord c
  | .number, cs => cs ≠ [] ∧ ∀ c ∈ cs, Text.isDigit c ∨ c = '.'
  | .blanks, cs => ∀ c ∈ cs, c = ' ' ∨ c = '\t'
  | .lineEnds, cs => cs ≠ [] ∧ ∀ c ∈ cs, c = '\n'
  | .comment, cs => '\n' ∉ cs
  | .string, cs => IsLiteral (String.ofList cs)
  | .plus, cs => cs = ['+']
  | .minus, cs => cs = ['-']
  | .times, cs => cs = ['*']
  | .divide, cs => cs = ['/']
  | .comparison, cs => Tree.isComparing (String.ofList cs)
  | .leftParen, cs => cs = ['(']
  | .rightParen, cs => cs = [')']
  | .comma, cs => cs = [',']
  | .marker, cs => cs = ['@']

namespace Piece

theorem all_run (kind : PieceKind) {q : Char → Bool} {c : Char} (hc : q c) (rest : List Char) :
    ∀ d ∈ (run kind q c rest).1.text, q d := by
  intro d hd
  rcases List.mem_cons.1 hd with rfl | hd
  · exact hc
  · exact List.all_eq_true.1 List.all_takeWhile d hd

theorem covers_numberRun {c : Char} (hc : Text.isDigit c) (rest : List Char) :
    PieceKind.Covers .number (numberRun c rest).1.text := by
  have hf : ∀ cs, ∀ d ∈ (fraction cs).1, Text.isDigit d ∨ d = '.' := by
    intro cs d hd
    unfold fraction at hd
    split at hd
    · split at hd
      case isTrue he =>
        rcases List.mem_cons.1 hd with rfl | hd
        · exact .inr rfl
        · rcases List.mem_cons.1 hd with rfl | hd
          · exact .inl he
          · exact .inl (List.all_eq_true.1 List.all_takeWhile d hd)
      case isFalse => cases hd
    · cases hd
  refine ⟨List.cons_ne_nil _ _, fun d hd => ?_⟩
  rcases List.mem_append.1 hd with hd | hd
  · exact .inl (all_run .number hc rest d hd)
  · exact hf _ d hd

theorem covers_comparison? {c : Char} {cs rest : List Char} {p : Piece} (hc : c ∈ ['<', '>', '=', '!'])
    (h : comparison? c cs = some (p, rest)) : p.kind.Covers p.text := by
  have hp : p.kind = .comparison ∧ Tree.isComparing (String.ofList p.text) := by
    simp only [List.mem_cons, List.not_mem_nil, or_false] at hc
    unfold comparison? at h
    split at h
    · cases h
      rcases hc with rfl | rfl | rfl | rfl <;> exact ⟨rfl, by decide⟩
    · rcases hc with rfl | rfl | rfl | rfl <;> cases h <;> exact ⟨rfl, by decide⟩
  rw [hp.1]
  exact hp.2

theorem covers_mark? {c : Char} {cs rest : List Char} {p : Piece} (h : mark? c cs = some (p, rest)) :
    p.kind.Covers p.text := by
  unfold mark? at h
  split at h
  case h_5 =>
    obtain ⟨⟨b, a⟩, hb, he⟩ := Option.map_eq_some_iff.1 h
    cases he
    obtain ⟨ds, hd, rfl⟩ := quotable_stringBody hb
    exact ⟨ds, hd, by simp⟩
  case h_1 => cases h; exact fun d hd => .inl (by simpa using all_run (q := (· == ' ')) _ rfl cs d hd)
  case h_2 => cases h; exact fun d hd => .inr (by simpa using all_run (q := (· == '\t')) _ rfl cs d hd)
  case h_3 =>
    cases h
    exact ⟨List.cons_ne_nil _ _, fun d hd => by simpa using all_run (q := (· == '\n')) _ rfl cs d hd⟩
  case h_4 => cases h; exact fun hd => absurd (all_run (q := (· != '\n')) _ rfl cs '\n' hd) (by decide)
  case h_14 | h_15 | h_16 | h_17 => exact covers_comparison? (by decide) h
  case h_18 => cases h
  all_goals cases h; rfl

theorem covers_first? {cs rest : List Char} {p : Piece} (h : first? cs = some (p, rest)) :
    p.kind.Covers p.text := by
  cases cs with
  | nil => cases h
  | cons c cs =>
    rw [first?] at h
    split at h
    case isTrue hw =>
      cases h
      have hw : inWord c := by
        rcases Bool.or_eq_true_iff.1 hw with ha | hu
        · simp [inWord, Char.isAlphanum, ha]
        · simp [inWord, hu]
      exact ⟨List.cons_ne_nil _ _, all_run .word hw cs⟩
    case isFalse =>
      split at h
      case isTrue hd =>
        cases h
        exact covers_numberRun hd cs
      case isFalse => exact covers_mark? h

/-- All pieces of a text are what their kinds say. -/
theorem covers_cut (cs : List Char) : ∀ p ∈ (cut cs).1, p.kind.Covers p.text := by
  fun_induction cut cs with
  | case1 => simp
  | case2 cs p rest h _ ps left hc ih =>
    rw [hc] at ih
    simpa using ⟨covers_first? h, ih⟩

theorem carries_wordKind (w : String) (v : Tree) : (wordKind w).Carries v := by
  unfold wordKind
  split <;> trivial

theorem carries_numberOf {cs : List Char} {payload : Payload} (h : numberOf cs = .ok payload) :
    TokenKind.Carries .number payload.tree := by
  unfold numberOf at h
  dsimp only at h
  split at h
  · split at h
    · cases h
    · cases h; exact .inl ⟨_, rfl⟩
  · cases h; exact .inr ⟨_, Number.zero_le_ofPlaces _ _, rfl⟩

/-- The kind of token that a piece makes can carry the text of the piece, unless it is a number. -/
theorem carries_tokenKind? {p : Piece} {opening nested : Bool} {k : TokenKind} (hp : p.kind.Covers p.text)
    (hn : p.kind ≠ .number) (h : p.tokenKind? opening nested = some k) :
    k.Carries (.text (String.ofList p.text)) := by
  obtain ⟨kind, cs⟩ := p
  unfold tokenKind? at h
  cases kind with
  | number => exact absurd rfl hn
  | word => cases h; exact carries_wordKind _ _
  | string | comparison => cases h; exact ⟨_, rfl, hp⟩
  | plus | minus | times | divide => cases h; cases hp; rfl
  | lineEnds =>
    dsimp only at h
    split at h
    · cases h
    · cases h; exact ⟨_, rfl, by simpa using hp.1, by simpa using hp.2⟩
  | blanks =>
    dsimp only at h
    split at h
    · cases h; trivial
    · cases h
  | comment => cases h
  | leftParen | rightParen | comma | marker => cases h; trivial

/-- The token of a piece carries what its kind says. -/
theorem carries_token? {s : Scanner} {opening : Bool} {p : Piece} {t : Token} (hp : p.kind.Covers p.text)
    (h : s.token? opening p = .ok (some t)) : t.kind.Carries t.payload.tree := by
  unfold Scanner.token? at h
  split at h
  case h_1 => cases h
  case h_2 k hk =>
    by_cases hn : p.kind = .number
    · have hk' : k = .number := by simpa [tokenKind?, hn] using hk.symm
      rw [payload, if_pos hn] at h
      cases hv : numberOf p.text with
      | error f => rw [hv] at h; cases h
      | ok v =>
        rw [hv] at h
        cases h
        exact hk' ▸ carries_numberOf hv
    · rw [payload, if_neg hn] at h
      cases h
      exact carries_tokenKind? hp hn hk

end Piece

/-! ## From pieces to tokens of the layout -/

/-- What holds of the tokens of all pieces holds of all tracked tokens. -/
theorem track_forall {Q : Token → Prop} (left : List Char) {ps : List Piece}
    (h : ∀ p ∈ ps, ∀ (s : Scanner) (opening : Bool) (t : Token), s.token? opening p = .ok (some t) → Q t)
    (s : Scanner) (l : LineTracker) : ∀ x ∈ (track s l left ps).items, Q x.1.token := by
  induction ps generalizing s l with
  | nil => simp [track, Stream.ended]
  | cons p ps ih =>
    have ih := ih fun q hq => h q (List.mem_cons_of_mem p hq)
    rw [track]
    split
    case h_1 => simp
    case h_2 => exact ih _ _
    case h_3 t ht =>
      have hs : (l.step t).1.token = t := by
        unfold LineTracker.step
        split <;> rfl
      intro x hx
      rcases List.mem_cons.1 hx with rfl | hx
      · rw [hs]; exact h p List.mem_cons_self s l.opening t ht
      · exact ih _ _ x hx

section

variable {Q : Token → Prop} (hi : ∀ line, Q (.ofLayout .indent line)) (hd : ∀ line, Q (.ofLayout .dedent line))

include hi hd

theorem Indenter.step_forall {d d' : Indenter} {t : Tracked} {out : List Token} (h : d.step t = .ok (out, d'))
    (ht : Q t.token) : ∀ u ∈ out, Q u := by
  have hr : ∀ n line, ∀ u ∈ dedents n line, Q u := fun n line u hu => (List.eq_of_mem_replicate hu) ▸ hd line
  unfold step at h
  split at h
  case h_1 => split at h <;> cases h; simp
  case h_2 => cases h; split <;> simp [ht]
  case h_3 =>
    unfold real at h
    dsimp only at h
    repeat' split at h
    -- What is left are the tokens that open a block, go on at its depth, close blocks, or go on in their line.
    all_goals cases h
    · simp [hi, ht]
    · simp [ht]
    · intro u hu
      rcases List.mem_append.1 hu with hu | hu
      · exact hr _ _ u hu
      · exact (List.mem_singleton.1 hu) ▸ ht
    · simp [ht]

/-- What holds of tracked tokens and of those that stand for layout holds of all tokens of a layout. -/
theorem layOut_forall (he : ∀ line, Q (.ofLayout .endMarker line)) (mark : Bool) (fault : Option ReadFault)
    (last : Scanner) {xs : List (Tracked × Scanner)} (h : ∀ x ∈ xs, Q x.1.token) (d : Indenter)
    (seen put : Option Nat) : ∀ y ∈ (layOut mark fault last d seen put xs).items, Q y.1 := by
  induction xs generalizing d seen put with
  | nil =>
    cases fault with
    | some f => simp [layOut]
    | none =>
      intro y hy
      rw [layOut] at hy
      obtain ⟨u, hu, rfl⟩ := List.mem_map.1 hy
      rcases List.mem_append.1 hu with hu | hu
      · exact (List.eq_of_mem_replicate hu) ▸ hd _
      · cases mark
        · simp at hu
        · exact (List.mem_singleton.1 hu) ▸ he _
  | cons x xs ih =>
    have ih := ih fun x hx => h x (List.mem_cons_of_mem _ hx)
    obtain ⟨t, s⟩ := x
    rw [layOut]
    split
    case h_1 => simp
    case h_2 out d' hs =>
      intro y hy
      rcases List.mem_append.1 hy with hy | hy
      · obtain ⟨u, hu, rfl⟩ := List.mem_map.1 hy
        exact Indenter.step_forall hi hd hs (h _ List.mem_cons_self) u hu
      · exact ih _ _ _ y hy

end

/-- All tokens of a text carry what their kinds say. -/
theorem carries_tokenize (line : Nat) (mark : Bool) (cs : List Char) :
    ∀ x ∈ (tokenize line mark cs).items, x.1.kind.Carries x.1.payload.tree := by
  refine layOut_forall (Q := fun t => t.kind.Carries t.payload.tree) (fun _ => trivial) (fun _ => trivial)
    (fun _ => trivial) mark _ _ ?_ _ _ _
  exact track_forall _ (fun p hp s opening t ht => Piece.carries_token? (Piece.covers_cut cs p hp) ht) _ _

/-! ## Shapes of trees -/

namespace Tree

/-- A number literal. -/
inductive Numeral : Tree → Prop
  | whole (n : Nat) : Numeral (.int n)
  | real {x : Float} (h : 0.0 ≤ x) : Numeral (.float x)

/-- An expression as a program has it. A minus sign in front stands for a product. -/
inductive Expression : Tree → Prop
  | number {v : Tree} (h : Numeral v) : Expression v
  | truth (b : Bool) : Expression (.bool b)
  | string {s : String} (h : IsLiteral s) : Expression (.text s)
  | name (x : String) : Expression (.name x)
  | negation {e : Tree} (he : Expression e) : Expression (.operation "*" [.int (-1), e])
  | operation {op : String} {a b : Tree} (ho : isBinary op) (ha : Expression a) (hb : Expression b) :
      Expression (.operation op [a, b])
  | comparison {op : String} {a b : Tree} (ho : isComparing op) (ha : Expression a) (hb : Expression b) :
      Expression (.comparison op [a, b])

/-- The test of a conditional statement. -/
inductive Test : Tree → Prop
  | intro {op : String} {a b : Tree} (ho : isComparing op) (ha : Expression a) (hb : Expression b) :
      Test (.comparison op [a, b])

mutual

/-- A statement as a program has it. -/
inductive Statement : Tree → Prop
  | assign (x : String) {e : Tree} (he : Expression e) : Statement (.assign x e)
  | when {test body : Tree} (ht : Test test) (hb : Body body) : Statement (.when test body)
  | choose {test body other : Tree} (ht : Test test) (hb : Body body) (ho : Body other) :
      Statement (.choose test body other)
  | give {e : Tree} (he : Expression e) : Statement (.give e)
  | print {e : Tree} (he : Expression e) : Statement (.print e)
  | printEmpty : Statement (.print .none)
  | jump {l : Tree} (hl : Numeral l) : Statement (.jump l)
  | mark {l : Tree} (hl : Numeral l) : Statement (.mark l)

/-- What a conditional statement does: one statement, or a list of several. -/
inductive Body : Tree → Prop
  | one {s : Tree} (h : Statement s) : Body s
  | many {ss : List Tree} (hl : 2 ≤ ss.length) (h : ∀ s ∈ ss, Statement s) : Body (.list ss)

end

/-- An item of a whole program: besides statements there can be an expression, and line ends. -/
inductive Item : Tree → Prop
  | statement {s : Tree} (h : Statement s) : Item s
  | expression {e : Tree} (h : Expression e) : Item e
  | lineEnds {s : String} (h : IsLineEnds s) : Item (.text s)

/-- The items of a whole program: the first is a statement or an expression, and no other one is an expression. -/
inductive Items : List Tree → Prop
  | intro {first : Tree} {rest : List Tree} (hf : Statement first ∨ Expression first)
      (hr : ∀ t ∈ rest, Statement t ∨ ∃ s, t = .text s ∧ IsLineEnds s) : Items (first :: rest)

theorem Items.item {items : List Tree} (h : Items items) : ∀ t ∈ items, Item t := by
  obtain ⟨hf, hr⟩ := h
  intro t ht
  rcases List.mem_cons.1 ht with rfl | ht
  · rcases hf with hs | he
    · exact .statement hs
    · exact .expression he
  · rcases hr t ht with hs | ⟨s, rfl, hl⟩
    · exact .statement hs
    · exact .lineEnds hl

theorem Items.snoc {items : List Tree} (h : Items items) {t : Tree}
    (ht : Statement t ∨ ∃ s, t = .text s ∧ IsLineEnds s) : Items (items ++ [t]) := by
  obtain ⟨hf, hr⟩ := h
  refine .intro hf fun u hu => ?_
  rcases List.mem_append.1 hu with hu | hu
  · exact hr u hu
  · exact List.mem_singleton.1 hu ▸ ht

theorem Statement.isList {s : Tree} (h : Statement s) : s.isList = false := by
  cases h <;> rfl

theorem Expression.isList {e : Tree} (h : Expression e) : e.isList = false := by
  cases h with
  | number h => cases h <;> rfl
  | _ => rfl

end Tree

namespace Grammar

open Pseudocode.Tree

/-- The shape of the values that are built for a symbol. -/
def Shaped : Sym → Tree → Prop
  | .terminal k, v => k.Carries v
  | .nonterminal .input, v | .nonterminal .program, v => ∃ items, v = .list items ∧ Items items
  | .nonterminal .command, v | .nonterminal .stmt, v | .nonterminal .statement, v => Statement v
  | .nonterminal .stmts, v | .nonterminal .block, v => Body v
  | .nonterminal .expression, v => Expression v
  | .nonterminal .comparison, v => Test v

theorem body_extend {ss s : Tree} (hb : Body ss) (hs : Statement s) : Body (extend ss s) := by
  cases hb with
  | one h =>
    rw [Reader.extend_of_isList h.isList]
    exact .many (Nat.le_refl 2) (by simp [h, hs])
  | @many ss hl h =>
    refine .many (by simp; omega) ?_
    intro t ht
    rcases List.mem_append.1 ht with ht | ht
    · exact h t ht
    · exact (List.mem_singleton.1 ht) ▸ hs

theorem items_extend {p t : Tree} (hp : ∃ items, p = .list items ∧ Items items)
    (ht : Statement t ∨ ∃ s, t = .text s ∧ IsLineEnds s) : ∃ items, extend p t = .list items ∧ Items items := by
  obtain ⟨items, rfl, h⟩ := hp
  exact ⟨items ++ [t], rfl, h.snoc ht⟩

theorem items_listOf {t : Tree} (hl : t.isList = false) (ht : Statement t ∨ Expression t) :
    ∃ items, listOf t = .list items ∧ Items items :=
  ⟨[t], Reader.listOf_of_isList hl, .intro ht nofun⟩

theorem numeral_of_carries {v : Tree} (h : TokenKind.Carries .number v) : Numeral v := by
  rcases h with ⟨n, rfl⟩ | ⟨x, hx, rfl⟩
  · exact .whole n
  · exact .real hx

/-- Every rule builds a tree of the right shape. -/
theorem shaped_build (r : Rule) (ws : List Tree) (h : List.Forall₂ Shaped r.right ws) :
    Shaped (part r.left) (r.build ws) := by
  cases r with
  | input =>
    obtain _ | ⟨hp, _ | ⟨_, _ | _⟩⟩ := h
    exact hp
  | programNewline =>
    obtain _ | ⟨hp, _ | ⟨⟨s, rfl, hs⟩, _ | _⟩⟩ := h
    exact items_extend hp (.inr ⟨s, rfl, hs⟩)
  | programCommand =>
    obtain _ | ⟨hp, _ | ⟨hc, _ | _⟩⟩ := h
    exact items_extend hp (.inl hc)
  | programFirst =>
    obtain _ | ⟨hc, _ | _⟩ := h
    exact items_listOf (Statement.isList hc) (.inl hc)
  | programExpression =>
    obtain _ | ⟨he, _ | _⟩ := h
    exact items_listOf (Expression.isList he) (.inr he)
  | command | stmtBare =>
    obtain _ | ⟨hs, _ | _⟩ := h
    exact hs
  | stmtNewline =>
    obtain _ | ⟨hs, _ | ⟨_, _ | _⟩⟩ := h
    exact hs
  | stmtsMore =>
    obtain _ | ⟨hb, _ | ⟨hs, _ | _⟩⟩ := h
    exact body_extend hb hs
  | stmtsOne | blockInline =>
    obtain _ | ⟨hs, _ | _⟩ := h
    exact .one hs
  | blockIndented =>
    obtain _ | ⟨_, _ | ⟨_, _ | ⟨hb, _ | ⟨_, _ | _⟩⟩⟩⟩ := h
    exact hb
  | assign =>
    obtain _ | ⟨_, _ | ⟨_, _ | ⟨_, _ | ⟨he, _ | _⟩⟩⟩⟩ := h
    exact .assign _ he
  | when =>
    obtain _ | ⟨_, _ | ⟨ht, _ | ⟨_, _ | ⟨_, _ | ⟨hb, _ | _⟩⟩⟩⟩⟩ := h
    exact .when ht hb
  | choose =>
    obtain _ | ⟨_, _ | ⟨ht, _ | ⟨_, _ | ⟨_, _ | ⟨hb, _ | ⟨_, _ | ⟨ho, _ | _⟩⟩⟩⟩⟩⟩⟩ := h
    exact .choose ht hb ho
  | give =>
    obtain _ | ⟨_, _ | ⟨he, _ | _⟩⟩ := h
    exact .give he
  | print =>
    obtain _ | ⟨_, _ | ⟨he, _ | _⟩⟩ := h
    exact .print he
  | printEmpty =>
    obtain _ | ⟨_, _ | _⟩ := h
    exact .printEmpty
  | jump =>
    obtain _ | ⟨_, _ | ⟨_, _ | ⟨hl, _ | _⟩⟩⟩ := h
    exact .jump (numeral_of_carries hl)
  | mark =>
    obtain _ | ⟨_, _ | ⟨hl, _ | _⟩⟩ := h
    exact .mark (numeral_of_carries hl)
  | sum | difference | product | quotient =>
    obtain _ | ⟨ha, _ | ⟨rfl, _ | ⟨hb, _ | _⟩⟩⟩ := h
    exact .operation (by decide) ha hb
  | negation =>
    obtain _ | ⟨_, _ | ⟨he, _ | _⟩⟩ := h
    exact .negation he
  | number =>
    obtain _ | ⟨hn, _ | _⟩ := h
    exact .number (numeral_of_carries hn)
  | string =>
    obtain _ | ⟨⟨s, rfl, hs⟩, _ | _⟩ := h
    exact .string hs
  | name =>
    obtain _ | ⟨_, _ | _⟩ := h
    exact .name _
  | truth =>
    obtain _ | ⟨_, _ | _⟩ := h
    exact .truth _
  | group =>
    obtain _ | ⟨_, _ | ⟨he, _ | ⟨_, _ | _⟩⟩⟩ := h
    exact he
  | compared =>
    obtain _ | ⟨ht, _ | _⟩ := h
    obtain ⟨ho, ha, hb⟩ := ht
    exact .comparison ho ha hb
  | comparison =>
    obtain _ | ⟨ha, _ | ⟨⟨op, rfl, ho⟩, _ | ⟨hb, _ | _⟩⟩⟩ := h
    exact .intro ho ha hb

end Grammar

/-- A program is read only if the tokens of the text make it up. -/
theorem readProgram_eq_ok {source : String} {program : List Tree} (h : readProgram source = .ok program) :
    Reader.programOf ((tokenize 1 true source.toList).items.map Prod.fst) = .ok program := by
  unfold readProgram at h
  dsimp only at h
  split at h
  · exact h
  · cases hr : Reader.start.feedAll ((tokenize 1 true source.toList).items.map Prod.fst) <;>
      rw [hr] at h <;> cases h

/-- A program that is read has the shape of a statement or an expression with statements and line ends behind it. -/
theorem readProgram_items {source : String} {program : List Tree} (h : readProgram source = .ok program) :
    Tree.Items program := by
  have hy := Reader.yields_of_programOf (readProgram_eq_ok h)
  have hv := hy.forall_values Grammar.shaped_build fun t ht => by
    obtain ⟨x, hx, rfl⟩ := List.mem_map.1 ht
    exact carries_tokenize 1 true source.toList x hx
  obtain _ | ⟨⟨items, he, hi⟩, _ | _⟩ := hv
  cases he
  exact hi

theorem readProgram_shaped {source : String} {program : List Tree} (h : readProgram source = .ok program) :
    ∀ t ∈ program, t.Item :=
  (readProgram_items h).item

end Pseudocode
