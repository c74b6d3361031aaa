import Pseudocode.Proofs.Grammar
import Pseudocode.Tree.Text
/-!
# The reader reads what derives

A reader keeps in its frames and its mode what it has read and not completed. `Reads r us` says what the
tokens `us` read so far are: for each frame, from the outermost to the innermost, the beginning of the right
side of some rule, and behind them what its mode stands for. Every token that the reader takes keeps this
(`Reads.feed`), so a program that it has read completely derives from the grammar, with the tree that the
reader has built (`yields_of_programOf`).
-/

namespace Pseudocode.Reader

open Grammar

/-! ## Values -/

theorem textOf_tree (p : Payload) : textOf p.tree = p.string := by
  cases p <;> rfl

/-- Tokens and the parts whose values are never lists. -/
def single : Sym → Bool
  | .terminal _ => true
  | .nonterminal p => p = .command ∨ p = .stmt ∨ p = .statement ∨ p = .expression ∨ p = .comparison

theorem isList_build (r : Rule) (ws : List Tree)
    (h : List.Forall₂ (fun s v => single s → v.isList = false) r.right ws) :
    single (part r.left) → (r.build ws).isList = false := by
  intro hs
  cases r with
  | input | programNewline | programCommand | programFirst | programExpression => cases hs
  | stmtsMore | stmtsOne | blockIndented | blockInline => cases hs
  | command | stmtBare | number | string | compared =>
    obtain _ | ⟨h, _ | _⟩ := h
    exact h rfl
  | stmtNewline =>
    obtain _ | ⟨h, _ | ⟨_, _ | _⟩⟩ := h
    exact h rfl
  | group =>
    obtain _ | ⟨_, _ | ⟨h, _ | ⟨_, _ | _⟩⟩⟩ := h
    exact h rfl
  | printEmpty | name | truth =>
    obtain _ | ⟨_, _ | _⟩ := h
    rfl
  | give | print | mark | negation =>
    obtain _ | ⟨_, _ | ⟨_, _ | _⟩⟩ := h
    rfl
  | jump | sum | difference | product | quotient | comparison =>
    obtain _ | ⟨_, _ | ⟨_, _ | ⟨_, _ | _⟩⟩⟩ := h
    rfl
  | assign =>
    obtain _ | ⟨_, _ | ⟨_, _ | ⟨_, _ | ⟨_, _ | _⟩⟩⟩⟩ := h
    rfl
  | when =>
    obtain _ | ⟨_, _ | ⟨_, _ | ⟨_, _ | ⟨_, _ | ⟨_, _ | _⟩⟩⟩⟩⟩ := h
    rfl
  | choose =>
    obtain _ | ⟨_, _ | ⟨_, _ | ⟨_, _ | ⟨_, _ | ⟨_, _ | ⟨_, _ | ⟨_, _ | _⟩⟩⟩⟩⟩⟩⟩ := h
    rfl

/-- No statement or expression is a list. -/
theorem isList_of_yields {p : Part} {ts : List Token} {v : Tree} (hp : single (part p)) (h : Yields p ts v) :
    v.isList = false := by
  have hv := h.forall_values isList_build fun t _ _ => by cases t.payload <;> rfl
  simp only [List.forall₂_cons, List.forall₂_nil_right_iff] at hv
  exact hv.1 hp

theorem listOf_of_isList {t : Tree} (h : t.isList = false) : listOf t = .list [t] := by
  cases t <;> first | rfl | cases h

theorem extend_of_isList {s : Tree} (h : s.isList = false) (t : Tree) : extend s t = .list [s, t] := by
  cases s <;> first | rfl | cases h

/-- The block of one more statement. -/
theorem blockTree_cons (s d : Tree) (done : List Tree) (h : d.isList = false) :
    blockTree (s :: d :: done) = extend (blockTree (d :: done)) s := by
  cases done with
  | nil => simp [blockTree, extend_of_isList h]
  | cons e done => simp [blockTree, extend]

/-! ## What frames and modes stand for -/

/-- The frames of conditional statements. -/
def IsConditional : Frame → Prop
  | .thenPart _ => True
  | .elsePart _ _ => True
  | _ => False

/-- A block stands in a conditional statement. -/
def Rests : Frame → List Frame → Prop
  | .block _, f :: _ => IsConditional f
  | .block _, [] => False
  | _, _ => True

theorem rests_block {done : List Tree} {F : List Frame} (h : Rests (.block done) F) (done' : List Tree) :
    Rests (.block done') F := by
  cases F <;> exact h

/-- The beginning of a conditional statement, up to its `then`. -/
def Headed (us : List Token) (test : Tree) : Prop :=
  ∃ a b c, Parses [tok .ifWord, part .comparison, tok .comma, tok .thenWord] us [a, test, b, c]

/-- What was read for a frame. -/
inductive FrameReads : Frame → List Token → Prop
  | negated (t : Token) (h : t.kind = .minus) : FrameReads .negated [t]
  | left {ts a l} (t : Token) (h : t.kind.level? = some l) (ha : Yields .expression ts a) :
      FrameReads (.left t.payload.string l a) (ts ++ [t])
  | paren (t : Token) (h : t.kind = .leftParen) : FrameReads .paren [t]
  | assigned (a b c : Token) (ha : a.kind = .letWord) (hb : b.kind = .name) (hc : c.kind = .beWord) :
      FrameReads (.assigned b.payload.string) [a, b, c]
  | given (t : Token) (h : t.kind = .returnWord) : FrameReads .given [t]
  | printed (t : Token) (h : t.kind = .printWord) : FrameReads .printed [t]
  | tested (t : Token) (h : t.kind = .ifWord) : FrameReads .tested [t]
  | thenPart {us test} (h : Headed us test) : FrameReads (.thenPart test) us
  | elsePart {us bs test body} (e : Token) (h : Headed us test) (hb : Yields .block bs body)
      (he : e.kind = .elseWord) : FrameReads (.elsePart test body) (us ++ bs ++ [e])
  | blockEmpty (n i : Token) (hn : n.kind = .newline) (hi : i.kind = .indent) : FrameReads (.block []) [n, i]
  | block {ts d done} (n i : Token) (hn : n.kind = .newline) (hi : i.kind = .indent)
      (h : Yields .stmts ts (blockTree (d :: done))) (hd : d.isList = false) :
      FrameReads (.block (d :: done)) (n :: i :: ts)
  | programEmpty : FrameReads (.program []) []
  | program {ts d done} (h : Yields .program ts (.list (d :: done).reverse)) :
      FrameReads (.program (d :: done)) ts

/-- What was read for some frames, the innermost of them first. -/
inductive Stacked : List Frame → List Token → Prop
  | nil : Stacked [] []
  | cons {f F us ts} (hf : FrameReads f us) (hr : Rests f F) (hF : Stacked F ts) : Stacked (f :: F) (ts ++ us)

/-- What was read for a mode, over the frames that it needs. -/
inductive ModeReads : ReaderMode → List Frame → List Token → Prop
  | statement {F} : ModeReads .statement F []
  | operand {F} : ModeReads .operand F []
  | printable {F} (t : Token) (h : t.kind = .printWord) : ModeReads .printable F [t]
  | operator {F ts e} (h : Yields .expression ts e) : ModeReads (.operator e false) F ts
  | target {F} (t : Token) (h : t.kind = .letWord) : ModeReads .target F [t]
  | be {F} (a b : Token) (ha : a.kind = .letWord) (hb : b.kind = .name) :
      ModeReads (.be b.payload.string) F [a, b]
  | instruction {F} (t : Token) (h : t.kind = .gotoWord) : ModeReads .instruction F [t]
  | jumpLabel {F} (a b : Token) (ha : a.kind = .gotoWord) (hb : b.kind = .instructionWord) :
      ModeReads .jumpLabel F [a, b]
  | markLabel {F} (t : Token) (h : t.kind = .marker) : ModeReads .markLabel F [t]
  | thenWord {F ts test} (i c : Token) (hi : i.kind = .ifWord) (hc : c.kind = .comma)
      (h : Yields .comparison ts test) : ModeReads (.thenWord test) F (i :: (ts ++ [c]))
  | body {f F} (hf : IsConditional f) : ModeReads .body (f :: F) []
  | indent {f F} (hf : IsConditional f) (n : Token) (hn : n.kind = .newline) : ModeReads .indent (f :: F) [n]
  | ended {F ts s} (h : Yields .statement ts s) : ModeReads (.ended s) F ts
  | bodied {F us bs test body} (h : Headed us test) (hb : Yields .block bs body) :
      ModeReads (.bodied test body) F (us ++ bs)
  | accepted {d done F} (t : Token) (h : t.kind = .endMarker) :
      ModeReads .accepted (.program (d :: done) :: F) [t]

/-- What a reader has read. -/
def Reads (r : Reader) (us : List Token) : Prop :=
  ∃ ts ms, us = ts ++ ms ∧ Stacked r.frames ts ∧ ModeReads r.mode r.frames ms

/-- A frame with nothing read behind it. -/
theorem Reads.of_frame {f : Frame} {F : List Frame} {m : ReaderMode} {us ts : List Token}
    (hf : FrameReads f us) (hr : Rests f F) (hF : Stacked F ts) (hm : ModeReads m (f :: F) []) :
    Reads ⟨m, f :: F⟩ (ts ++ us) :=
  ⟨ts ++ us, [], by simp, .cons hf hr hF, hm⟩

/-! ## Statements -/

theorem yields_when {us bs : List Token} {test body : Tree} (h : Headed us test) (hb : Yields .block bs body) :
    Yields .statement (us ++ bs) (.when test body) := by
  obtain ⟨a, b, c, h⟩ := h
  exact Yields.of_rule .when (h.append hb)

theorem yields_choose {us bs os : List Token} {test body other : Tree} {e : Token} (h : Headed us test)
    (hb : Yields .block bs body) (he : e.kind = .elseWord) (ho : Yields .block os other) :
    Yields .statement (us ++ bs ++ [e] ++ os) (.choose test body other) := by
  obtain ⟨a, b, c, h⟩ := h
  have hp : Parses (tok .elseWord :: [part .block]) (e :: os) [e.payload.tree, other] := .token e he ho
  have hc : Yields .statement (us ++ bs ++ e :: os) (.choose test body other) :=
    Yields.of_rule .choose ((h.append hb).append hp)
  simpa using hc

theorem yields_block {ts : List Token} {s : Tree} (h : Yields .statement ts s) : Yields .block ts s :=
  Yields.of_rule .blockInline (Yields.of_rule .stmtBare h)

theorem block_more {done : List Tree} {us ms : List Token} {s : Tree} (h : FrameReads (.block done) us)
    (hs : Yields .stmt ms s) : FrameReads (.block (s :: done)) (us ++ ms) := by
  have hl : s.isList = false := isList_of_yields rfl hs
  cases h with
  | blockEmpty n i hn hi => exact .block n i hn hi (Yields.of_rule .stmtsOne hs) hl
  | @block ts d done n i hn hi h hd =>
    refine .block n i hn hi ?_ hl
    rw [blockTree_cons s d done hd]
    exact Yields.of_rule .stmtsMore (h.append hs)

theorem program_more {done : List Tree} {us ms : List Token} {s : Tree} (h : FrameReads (.program done) us)
    (hs : Yields .stmt ms s) : FrameReads (.program (s :: done)) (us ++ ms) := by
  have hc : Yields .command ms s := Yields.of_rule .command hs
  cases h with
  | programEmpty =>
    refine .program ?_
    rw [show [s].reverse = [s] from rfl, ← listOf_of_isList (isList_of_yields rfl hs)]
    exact Yields.of_rule .programFirst hc
  | @program _ d done h =>
    refine .program ?_
    have hp : Yields .program (us ++ ms) (.list ((d :: done).reverse ++ [s])) :=
      Yields.of_rule .programCommand (h.append hc)
    simpa using hp

theorem program_newline {d : Tree} {done : List Tree} {us : List Token} {t : Token}
    (h : FrameReads (.program (d :: done)) us) (ht : t.kind = .newline) :
    FrameReads (.program (t.payload.tree :: d :: done)) (us ++ [t]) := by
  cases h with
  | program h =>
    refine .program ?_
    have hp : Yields .program (us ++ [t]) (.list ((d :: done).reverse ++ [t.payload.tree])) :=
      Yields.of_rule .programNewline (h.append (.token t ht .nil))
    simpa using hp

theorem block_end {d : Tree} {done : List Tree} {us : List Token} {t : Token}
    (h : FrameReads (.block (d :: done)) us) (ht : t.kind = .dedent) :
    Yields .block (us ++ [t]) (blockTree (d :: done)) := by
  cases h with
  | block n i hn hi h _ => exact Yields.of_rule .blockIndented (.token n hn (.token i hi (h.append (.token t ht .nil))))

/-! ## One token -/

theorem begin_reads {t : Token} {F : List Frame} {us : List Token} {r : Reader} (hF : Stacked F us)
    (h : begin t F = some r) : Reads r (us ++ [t]) := by
  unfold begin at h
  split at h <;> cases h
  case h_1 hk => exact ⟨us, [t], rfl, hF, .target t hk⟩
  case h_2 hk => exact .of_frame (.tested t hk) trivial hF .operand
  case h_3 hk => exact .of_frame (.given t hk) trivial hF .operand
  case h_4 hk => exact ⟨us, [t], rfl, hF, .printable t hk⟩
  case h_5 hk => exact ⟨us, [t], rfl, hF, .instruction t hk⟩
  case h_6 hk => exact ⟨us, [t], rfl, hF, .markLabel t hk⟩

theorem operand_reads {t : Token} {F : List Frame} {us : List Token} {r : Reader} (hF : Stacked F us)
    (h : operand t F = some r) : Reads r (us ++ [t]) := by
  unfold operand at h
  split at h <;> cases h
  case h_1 hk =>
    refine ⟨us, [t], rfl, hF, .operator ?_⟩
    rw [← textOf_tree]
    exact Yields.of_rule .name (.token t hk .nil)
  case h_2 hk => exact ⟨us, [t], rfl, hF, .operator (Yields.of_rule .number (.token t hk .nil))⟩
  case h_3 hk => exact ⟨us, [t], rfl, hF, .operator (Yields.of_rule .string (.token t hk .nil))⟩
  case h_4 hk =>
    refine ⟨us, [t], rfl, hF, .operator ?_⟩
    rw [← textOf_tree]
    exact Yields.of_rule .truth (.token t hk .nil)
  case h_5 hk => exact .of_frame (.negated t hk) trivial hF .operand
  case h_6 hk => exact .of_frame (.paren t hk) trivial hF .operand

theorem place_block {f : Frame} {F : List Frame} {us ms : List Token} {s : Tree} {r : Reader}
    (hF : Stacked (f :: F) us) (hf : IsConditional f) (hs : Yields .block ms s)
    (h : place s (f :: F) = some r) : Reads r (us ++ ms) := by
  cases hF with
  | @cons _ _ xs ts hr _ hF =>
    cases hr with
    | thenPart ht =>
      cases h
      exact ⟨ts, xs ++ ms, by simp, hF, .bodied ht hs⟩
    | elsePart e ht hb he =>
      cases h
      exact ⟨ts, _, by simp, hF, .ended (yields_choose ht hb he hs)⟩
    | _ => exact absurd hf id

theorem place_stmt {F : List Frame} {us ms : List Token} {s : Tree} {r : Reader}
    (hF : Stacked F us) (hs : Yields .stmt ms s) (h : place s F = some r) : Reads r (us ++ ms) := by
  unfold place at h
  split at h
  case h_1 => exact place_block hF trivial (Yields.of_rule .blockInline hs) h
  case h_2 => exact place_block hF trivial (Yields.of_rule .blockInline hs) h
  case h_3 =>
    cases h
    cases hF with
    | cons hr hc hF =>
      rw [List.append_assoc]
      exact .of_frame (block_more hr hs) (rests_block hc _) hF .statement
  case h_4 =>
    cases h
    cases hF with
    | cons hr _ hF =>
      rw [List.append_assoc]
      exact .of_frame (program_more hr hs) trivial hF .statement
  case h_5 => cases h

theorem atStatement_reads {t : Token} {F : List Frame} {us : List Token} {r : Reader} (hF : Stacked F us)
    (h : atStatement t F = some r) : Reads r (us ++ [t]) := by
  unfold atStatement at h
  split at h
  case h_1 =>
    rcases Option.or_eq_some_iff.1 h with h | ⟨-, h⟩
    · exact begin_reads hF h
    · exact operand_reads hF h
  case h_2 =>
    split at h
    case h_1 hk =>
      cases h
      cases hF with
      | cons hr _ hF =>
        rw [List.append_assoc]
        exact .of_frame (program_newline hr hk) trivial hF .statement
    case h_2 hk =>
      cases h
      exact ⟨us, [t], rfl, hF, .accepted t hk⟩
    case h_3 => exact begin_reads hF h
  case h_3 => exact begin_reads hF h
  case h_4 F =>
    split at h
    -- A dedent ends the block, and what it ends is the part of a conditional statement.
    case isTrue hk =>
      cases hF with
      | cons hr hc hF =>
        rw [List.append_assoc]
        cases F with
        | nil => exact absurd hc id
        | cons f F => exact place_block hF hc (block_end hr hk) h
    case isFalse => exact begin_reads hF h
  case h_5 => cases h

/-- A token behind a complete statement closes the statements around it that it ends. -/
theorem unwind_reads {t : Token} {F : List Frame} {us ms : List Token} {s : Tree} {r : Reader}
    (hF : Stacked F us) (hs : Yields .statement ms s) (h : unwind t s F = some r) :
    Reads r (us ++ ms ++ [t]) := by
  -- On the frames: each conditional statement that ends becomes the statement to put into the next frame.
  induction F generalizing us ms s with
  | nil => cases h
  | cons f F ih =>
    cases hF with
    | cons hr hc hF =>
      have hb : Yields .block ms s := yields_block hs
      have hm : Yields .stmt ms s := Yields.of_rule .stmtBare hs
      cases hr with
      | thenPart ht =>
        rw [unwind] at h
        split at h
        case isTrue hk =>
          cases h
          simpa using Reads.of_frame (.elsePart t ht hb hk) trivial hF (.body trivial)
        case isFalse => simpa using ih hF (yields_when ht hb) h
      | elsePart e ht hb' he => simpa using ih hF (yields_choose ht hb' he hb) h
      | blockEmpty n i hn hi =>
        have hr := block_more (.blockEmpty n i hn hi) hm
        simpa using atStatement_reads (.cons hr (rests_block hc _) hF) h
      | block n i hn hi hb' hd =>
        have hr := block_more (.block n i hn hi hb' hd) hm
        simpa using atStatement_reads (.cons hr (rests_block hc _) hF) h
      | programEmpty => simpa using atStatement_reads (.cons (program_more .programEmpty hm) trivial hF) h
      | program hp => simpa using atStatement_reads (.cons (program_more (.program hp) hm) trivial hF) h
      | _ => cases h

theorem complete_reads {t : Token} {F : List Frame} {us ms : List Token} {s : Tree} {r : Reader}
    (hF : Stacked F us) (hs : Yields .statement ms s) (h : complete t s F = some r) :
    Reads r (us ++ ms ++ [t]) := by
  rw [complete] at h
  split at h
  case isTrue hk =>
    have hm : Yields .stmt (ms ++ [t]) s := Yields.of_rule .stmtNewline (hs.append (.token t hk .nil))
    rw [List.append_assoc]
    exact place_stmt hF hm h
  case isFalse => exact unwind_reads hF hs h

/-! ## Expressions -/

theorem level_cases {k : TokenKind} {l : Nat} (h : k.level? = some l) :
    (k = .comparison ∧ l = 1) ∨ (k = .plus ∧ l = 2) ∨ (k = .minus ∧ l = 2) ∨ (k = .times ∧ l = 3) ∨
      (k = .divide ∧ l = 3) := by
  cases k <;> simp_all [TokenKind.level?]

/-- Two operands and the operator between them, and whether they are a comparison. -/
theorem yields_combine {t : Token} {l : Nat} {xs ys : List Token} {a b : Tree} (ht : t.kind.level? = some l)
    (ha : Yields .expression xs a) (hb : Yields .expression ys b) :
    Yields .expression (xs ++ t :: ys) (combine t.payload.string l a b) ∧
      (l = 1 → Yields .comparison (xs ++ t :: ys) (combine t.payload.string l a b)) := by
  rw [← textOf_tree]
  rcases level_cases ht with ⟨hk, rfl⟩ | ⟨hk, rfl⟩ | ⟨hk, rfl⟩ | ⟨hk, rfl⟩ | ⟨hk, rfl⟩
  · have hc := Yields.of_rule .comparison (ha.append (.token t hk hb))
    exact ⟨Yields.of_rule .compared hc, fun _ => hc⟩
  · exact ⟨Yields.of_rule .sum (ha.append (.token t hk hb)), by simp⟩
  · exact ⟨Yields.of_rule .difference (ha.append (.token t hk hb)), by simp⟩
  · exact ⟨Yields.of_rule .product (ha.append (.token t hk hb)), by simp⟩
  · exact ⟨Yields.of_rule .quotient (ha.append (.token t hk hb)), by simp⟩

/-- An operand, and whether it is a comparison. -/
def Operand (ms : List Token) (e : Tree) (compares : Bool) : Prop :=
  Yields .expression ms e ∧ (compares = true → Yields .comparison ms e)

theorem settle_reads (level : Nat) {e : Tree} {c : Bool} {F : List Frame} {us ms : List Token}
    (hF : Stacked F us) (he : Operand ms e c) :
    ∃ us' ms', us ++ ms = us' ++ ms' ∧ Stacked (settle level e c F).2.2 us' ∧
      Operand ms' (settle level e c F).1 (settle level e c F).2.1 := by
  -- A frame that is settled hands its tokens over to the operand.
  fun_induction settle level e c F generalizing us ms with
  | case1 e c F hl ih =>
    cases hF with
    | @cons _ _ _ ts hr _ hF =>
      cases hr with
      | negated t ht =>
        have hn : Yields .expression (t :: ms) (negate e) := Yields.of_rule .negation (.token t ht he.1)
        obtain ⟨us', ms', heq, hs⟩ := ih hF ⟨hn, by simp⟩
        exact ⟨us', ms', by simpa using heq, hs⟩
  | case2 e c F hl => exact ⟨us, ms, rfl, hF, he⟩
  | case3 e c op l a F hl ih =>
    cases hF with
    | cons hr _ hF =>
      cases hr with
      | left t ht ha =>
        obtain ⟨h1, h2⟩ := yields_combine ht ha he.1
        obtain ⟨us', ms', heq, hs⟩ := ih hF ⟨h1, by simpa using h2⟩
        exact ⟨us', ms', by simpa using heq, hs⟩
  | case4 e c op l a F hl => exact ⟨us, ms, rfl, hF, he⟩
  | case5 => exact ⟨us, ms, rfl, hF, he⟩

theorem conclude_reads {t : Token} {e : Tree} {c : Bool} {F : List Frame} {us ms : List Token} {r : Reader}
    (hF : Stacked F us) (he : Operand ms e c) (h : conclude t e c F = some r) : Reads r (us ++ ms ++ [t]) := by
  cases hF with
  | nil => cases h
  | cons hr _ hF =>
    cases hr with
    | paren p hp =>
      rw [conclude] at h
      split at h
      case isTrue hk =>
        cases h
        have hg : Yields .expression (p :: (ms ++ [t])) e :=
          Yields.of_rule .group (.token p hp (he.1.append (.token t hk .nil)))
        exact ⟨_, _, by simp, hF, .operator hg⟩
      case isFalse => cases h
    | tested i hi =>
      rw [conclude] at h
      split at h
      case isTrue hk =>
        cases h
        exact ⟨_, _, by simp, hF, .thenWord i t hi hk.1 (he.2 hk.2)⟩
      case isFalse => cases h
    | assigned l x b hl hx hb =>
      have hs : Yields .statement (l :: x :: b :: ms) (.assign x.payload.string e) := by
        rw [← textOf_tree]
        exact Yields.of_rule .assign (.token l hl (.token x hx (.token b hb he.1)))
      simpa using complete_reads hF hs h
    | given g hg =>
      have hs : Yields .statement (g :: ms) (.give e) := Yields.of_rule .give (.token g hg he.1)
      simpa using complete_reads hF hs h
    | printed p hp =>
      have hs : Yields .statement (p :: ms) (.print e) := Yields.of_rule .print (.token p hp he.1)
      simpa using complete_reads hF hs h
    | programEmpty =>
      have hp : Yields .program ms (.list [e]) := by
        rw [← listOf_of_isList (isList_of_yields rfl he.1)]
        exact Yields.of_rule .programExpression he.1
      simpa using atStatement_reads (.cons (.program hp) trivial hF) h
    | _ => cases h

theorem operator_reads {t : Token} {e : Tree} {F : List Frame} {us ms : List Token} {r : Reader}
    (hF : Stacked F us) (he : Yields .expression ms e) (h : operator t e false F = some r) :
    Reads r (us ++ ms ++ [t]) := by
  unfold operator at h
  split at h
  case h_1 level hl =>
    obtain ⟨us', ms', heq, hs, ho⟩ := settle_reads level hF (⟨he, by simp⟩ : Operand ms e false)
    cases h
    rw [heq, List.append_assoc]
    exact .of_frame (.left t hl ho.1) trivial hs .operand
  case h_2 =>
    obtain ⟨us', ms', heq, hs, ho⟩ := settle_reads 0 hF (⟨he, by simp⟩ : Operand ms e false)
    rw [heq]
    exact conclude_reads hs ho h

/-! ## All tokens -/

theorem expect_eq_some {t : Token} {k : TokenKind} {m : ReaderMode} {F : List Frame} {r : Reader}
    (h : expect t k m F = some r) : t.kind = k ∧ r = ⟨m, F⟩ := by
  unfold expect at h
  split at h
  case isTrue hk => cases h; exact ⟨hk, rfl⟩
  case isFalse => cases h

theorem Reads.feed {r r' : Reader} {us : List Token} {t : Token} (hr : Reads r us) (h : r.feed t = some r') :
    Reads r' (us ++ [t]) := by
  obtain ⟨mode, F⟩ := r
  obtain ⟨ts, ms, rfl, hF, hm⟩ := hr
  cases hm with
  | statement => simpa using atStatement_reads hF h
  | operand => simpa using operand_reads hF h
  -- A `print` can stand alone, so what follows it is an operand or the end of the statement.
  | printable p hp =>
    rcases Option.or_eq_some_iff.1 h with h | ⟨-, h⟩
    · exact operand_reads (.cons (.printed p hp) trivial hF) h
    · exact complete_reads hF (Yields.of_rule .printEmpty (.token p hp .nil)) h
  | operator he => exact operator_reads hF he h
  | target a ha =>
    obtain ⟨hk, rfl⟩ := expect_eq_some h
    exact ⟨ts, [a, t], by simp, hF, .be a t ha hk⟩
  | be a b ha hb =>
    obtain ⟨hk, rfl⟩ := expect_eq_some h
    simpa using Reads.of_frame (.assigned a b t ha hb hk) trivial hF .operand
  | instruction a ha =>
    obtain ⟨hk, rfl⟩ := expect_eq_some h
    exact ⟨ts, [a, t], by simp, hF, .jumpLabel a t ha hk⟩
  | jumpLabel a b ha hb =>
    obtain ⟨hk, rfl⟩ := expect_eq_some h
    have hs := Yields.of_rule .jump (.token a ha (.token b hb (.token t hk .nil)))
    exact ⟨ts, [a, b, t], by simp, hF, .ended hs⟩
  | markLabel a ha =>
    obtain ⟨hk, rfl⟩ := expect_eq_some h
    have hs := Yields.of_rule .mark (.token a ha (.token t hk .nil))
    exact ⟨ts, [a, t], by simp, hF, .ended hs⟩
  | thenWord i c hi hc ht =>
    obtain ⟨hk, rfl⟩ := expect_eq_some h
    have hh : Headed _ _ := ⟨_, _, _, .token i hi (ht.append (.token c hc (.token t hk .nil)))⟩
    simpa using Reads.of_frame (.thenPart hh) trivial hF (.body trivial)
  | body hf =>
    dsimp only [Reader.feed] at h
    split at h
    case isTrue hk =>
      cases h
      exact ⟨ts, [t], by simp, hF, .indent hf t hk⟩
    case isFalse => simpa using begin_reads hF h
  | @indent f F hf n hn =>
    obtain ⟨hk, rfl⟩ := expect_eq_some h
    have hb : Rests (.block []) (f :: F) := hf
    simpa using Reads.of_frame (.blockEmpty n t hn hk) hb hF .statement
  | ended hs => exact complete_reads hF hs h
  | bodied ht hb =>
    dsimp only [Reader.feed] at h
    split at h
    case isTrue hk =>
      cases h
      simpa using Reads.of_frame (.elsePart t ht hb hk) trivial hF (.body trivial)
    case isFalse => exact complete_reads hF (yields_when ht hb) h
  | accepted => cases h

theorem Reads.feedAll {r r' : Reader} {us ts : List Token} (hr : Reads r us) (h : r.feedAll ts = .ok r') :
    Reads r' (us ++ ts) := by
  induction ts generalizing r us with
  | nil => cases h; simpa using hr
  | cons t ts ih =>
    rw [Reader.feedAll] at h
    split at h
    · cases h
    · rename_i hf
      simpa using ih (hr.feed hf) h

theorem reads_start : Reads start [] :=
  .of_frame .programEmpty trivial .nil .statement

theorem program?_eq_some {r : Reader} {p : List Tree} (h : r.program? = some p) :
    ∃ done, r = ⟨.accepted, [.program done]⟩ ∧ p = done.reverse := by
  obtain ⟨mode, F⟩ := r
  unfold program? at h
  split at h
  case h_1 done hm hF =>
    cases h
    simp only at hm hF
    exact ⟨done, by rw [hm, hF], rfl⟩
  case h_2 => cases h

theorem programOf_eq_ok {ts : List Token} {p : List Tree} :
    programOf ts = .ok p ↔ ∃ r, start.feedAll ts = .ok r ∧ r.program? = some p := by
  unfold programOf
  cases start.feedAll ts with
  | error f => simp [bind, Except.bind]
  | ok r =>
    cases hp : r.program? with
    | none => simp [bind, Except.bind, hp]
    | some q => simp [bind, Except.bind, hp, pure, Except.pure]

/-- A program that the reader has read derives from the grammar, with the tree that it has built. -/
theorem yields_of_programOf {ts : List Token} {p : List Tree} (h : programOf ts = .ok p) :
    Yields .input ts (.list p) := by
  obtain ⟨r, hr, hp⟩ := programOf_eq_ok.1 h
  obtain ⟨done, rfl, rfl⟩ := program?_eq_some hp
  obtain ⟨us, ms, heq, hF, hm⟩ := reads_start.feedAll hr
  cases hm with
  | accepted t ht =>
    cases hF with
    | cons hf _ h0 =>
      cases h0
      cases hf with
      | program hp =>
        simp only [List.nil_append] at heq
        rw [heq]
        exact Yields.of_rule .input (hp.append (.token t ht .nil))

end Pseudocode.Reader
