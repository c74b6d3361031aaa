import Mathlib
import Pseudocode.Proofs.Spelling

/-!
# Statements read back from their text

The text of a statement is its source. `Tree.Term` are the expressions that are made of whole numbers, string literals,
truth values, names and the four operators; a `Tree.Formula` may be one comparison of two of them; and a `Tree.Line` is
a formula, or a statement on one line about a formula or a label. The text of each of them lexes to its tokens, and the
parentheses around every operation bring the reader back to the same tree (`Tree.Term.reads`, `Tree.Formula.reads`). So
the text of a line reads as the program that is this line alone: `readProgram_shown`.
-/

namespace Pseudocode

namespace Reader

/-! ## Taking tokens by what they say -/

section

variable {r r₁ r' : Reader} {ts us : List Content}

theorem Takes.nil : r.Takes [] r := by
  intro us hu
  rw [List.map_eq_nil_iff.1 hu]
  rfl

theorem Takes.cons {k : TokenKind} {v : Payload}
    (h : ∀ t : Token, t.kind = k → t.payload = v → r.feed t = some r₁) (h' : r₁.Takes ts r') :
    r.Takes ((k, v) :: ts) r' := by
  intro us hu
  obtain ⟨t, us, rfl, ht, hu⟩ := List.map_eq_cons_iff.1 hu
  exact feedAll_cons (h t (congrArg Prod.fst ht) (congrArg Prod.snd ht)) (h' us hu)

theorem Takes.append (h : r.Takes ts r₁) (h' : r₁.Takes us r') : r.Takes (ts ++ us) r' := by
  intro vs hv
  obtain ⟨as, bs, rfl, ha, hb⟩ := List.map_eq_append_iff.1 hv
  exact feedAll_append (h as ha) (h' bs hb)

end

/-- Tokens that are an operand, wherever one can stand. -/
def ReadsTerm (ts : List Content) (e : Tree) : Prop :=
  ∀ r F, TakesOperand r F → r.Takes ts ⟨.operator e false, F⟩

/-- Tokens that are an expression, wherever one can stand and no operator waits. -/
def ReadsFormula (ts : List Content) (e : Tree) : Prop :=
  ∀ r F, TakesOperand r F → Settled F →
    ∃ r', r.Takes ts r' ∧ ∀ t : Token, t.kind.level? = none → ∃ c, r'.feed t = conclude t e c F

theorem readsTerm_single {k : TokenKind} {v : Payload} {e : Tree}
    (h : ∀ (t : Token) (F : List Frame), t.kind = k → t.payload = v → operand t F = some ⟨.operator e false, F⟩) :
    ReadsTerm [(k, v)] e :=
  fun _ F hr => .cons (fun t hk hv => hr t _ (h t F hk hv)) .nil

/-- An operator is taken behind an operand, and waits for the other one. -/
theorem feed_sign {t : Token} {l : Nat} (hl : t.kind.level? = some l) (a : Tree) {F : List Frame} (hF : Settled F) :
    feed ⟨.operator a false, F⟩ t = some ⟨.operand, .left t.payload.string l a :: F⟩ := by
  simp only [feed, operator, hl, settle_settled hF]

/-- Where an expression ends, the operator that waits takes both operands. -/
theorem feed_behind_sign {t : Token} (ht : t.kind.level? = none) (op : String) (l : Nat) (a b : Tree) {F : List Frame}
    (hF : Settled F) :
    feed ⟨.operator b false, .left op l a :: F⟩ t = conclude t (combine op l a b) (l == 1) F := by
  simp only [feed, operator, ht, settle, Nat.zero_le, if_true, settle_settled hF]

theorem readsTerm_operation {ts us : List Content} {a b : Tree} (ha : ReadsTerm ts a) (hb : ReadsTerm us b)
    {op : String} {l : Nat} (hl : (signKind op).level? = some l) :
    ReadsTerm ((.leftParen, .text "(") :: ((ts ++ [(signKind op, .text op)]) ++ us ++ [(.rightParen, .text ")")]))
      (combine op l a b) := by
  intro r F hr
  refine .cons (fun t hk _ => hr t ⟨.operand, .paren :: F⟩ (by simp [operand, hk])) ?_
  have hs : Settled (.paren :: F) := trivial
  have h₁ := ha ⟨.operand, .paren :: F⟩ _ (takesOperand _)
  have h₂ : Takes ⟨.operator a false, .paren :: F⟩ [(signKind op, .text op)]
      ⟨.operand, .left op l a :: .paren :: F⟩ := by
    refine .cons (fun t hk hv => ?_) .nil
    rw [feed_sign (by rw [hk, hl]) a hs, hv]
    rfl
  have h₃ := hb ⟨.operand, .left op l a :: .paren :: F⟩ _ (takesOperand _)
  have h₄ : Takes ⟨.operator b false, .left op l a :: .paren :: F⟩ [(.rightParen, .text ")")]
      ⟨.operator (combine op l a b) false, F⟩ := by
    refine .cons (fun t hk _ => ?_) .nil
    rw [feed_behind_sign (by rw [hk]; rfl) op l a b hs, conclude, if_pos hk]
  exact ((h₁.append h₂).append h₃).append h₄

theorem ReadsTerm.formula {ts : List Content} {e : Tree} (h : ReadsTerm ts e) : ReadsFormula ts e := by
  intro r F hr hF
  refine ⟨_, h r F hr, fun t ht => ⟨false, ?_⟩⟩
  simp only [feed, operator, ht, settle_settled hF]

theorem readsFormula_comparison {ts us : List Content} {a b : Tree} (ha : ReadsTerm ts a) (hb : ReadsTerm us b)
    (op : String) : ReadsFormula ((ts ++ [(.comparison, .text op)]) ++ us) (.comparison op [a, b]) := by
  intro r F hr hF
  have h₂ : Takes ⟨.operator a false, F⟩ [(.comparison, .text op)] ⟨.operand, .left op 1 a :: F⟩ := by
    refine .cons (fun t hk hv => ?_) .nil
    rw [feed_sign (by rw [hk]; rfl) a hF, hv]
    rfl
  have h₃ := hb ⟨.operand, .left op 1 a :: F⟩ _ (takesOperand _)
  exact ⟨_, ((ha r F hr).append h₂).append h₃, fun t ht => ⟨true, feed_behind_sign ht op 1 a b hF⟩⟩

/-- A program can begin with an operand. -/
theorem takesOperand_start : TakesOperand start [.program []] := by
  intro t r' h
  have hb : begin t [.program []] = none := by
    unfold operand at h
    unfold begin
    split at h <;> first | (rename_i hk; simp only [hk]) | cases h
  simp only [start, feed, atStatement, hb, Option.none_or, h]

theorem takesOperand_printable (F : List Frame) : TakesOperand ⟨.printable, F⟩ (.printed :: F) := by
  intro t r' h
  simp only [feed, h, Option.some_or]

theorem ends_of_feed {r : Reader} {done : List Tree}
    (h : r.feed (endMarker none) = some ⟨.accepted, [.program done]⟩) : r.Ends 0 done :=
  feedAll_cons h rfl

/-- An expression behind some tokens, at the end of which a statement is complete. -/
theorem ReadsFormula.line {ts us : List Content} {e s : Tree} (h : ReadsFormula us e) {r : Reader} {F : List Frame}
    (hr : start.Takes ts r) (ho : TakesOperand r F) (hF : Settled F)
    (hc : ∀ c, conclude (endMarker none) e c F = some ⟨.accepted, [.program [s]]⟩) :
    ∃ r', start.Takes (ts ++ us) r' ∧ r'.Ends 0 [s] := by
  obtain ⟨r', ht, hn⟩ := h r F ho hF
  obtain ⟨c, hf⟩ := hn (endMarker none) rfl
  exact ⟨r', hr.append ht, ends_of_feed (hf.trans (hc c))⟩

end Reader

namespace Tree

/-! ## Trees that show as one line -/

/-- The name of a variable: a word that is not reserved. -/
structure IsName (x : String) : Prop where
  word : Piece.isWord x.toList = true
  free : Piece.wordKind x = .name

/-- Whole numbers, string literals, truth values, names and operations on them. -/
inductive Term : Tree → Prop
  | int {n : Nat} (h : (toString n).length ≤ digitLimit) : Term (.int n)
  | text {s : String} (h : IsLiteral s) : Term (.text s)
  | bool (b : Bool) : Term (.bool b)
  | name {x : String} (h : IsName x) : Term (.name x)
  | operation {op : String} {a b : Tree} (ho : isBinary op) (ha : Term a) (hb : Term b) : Term (.operation op [a, b])

/-- A term, or a comparison of two. -/
inductive Formula : Tree → Prop
  | term {e : Tree} (h : Term e) : Formula e
  | comparison {op : String} {a b : Tree} (ho : isComparing op) (ha : Term a) (hb : Term b) :
      Formula (.comparison op [a, b])

/-- A formula, or a statement on one line. -/
inductive Line : Tree → Prop
  | formula {e : Tree} (h : Formula e) : Line e
  | assign {x : String} {e : Tree} (hx : IsName x) (h : Formula e) : Line (.assign x e)
  | give {e : Tree} (h : Formula e) : Line (.give e)
  | print {e : Tree} (h : Formula e) : Line (.print e)
  | jump {n : Nat} (h : (toString n).length ≤ digitLimit) : Line (.jump (.int n))
  | mark {n : Nat} (h : (toString n).length ≤ digitLimit) : Line (.mark (.int n))

/-- The text of a tree lexes to tokens. -/
def Shows (t : Tree) (ts : List Content) : Prop :=
  ∃ text, t.show? = .ok text ∧ Lexes text.toList ts

theorem lt_longNumberBound {n : Nat} (h : (toString n).length ≤ digitLimit) : n < longNumberBound := by
  rw [Nat.toString_eq_ofList_toDigits, String.length_ofList] at h
  have hd : 0 < digitLimit := by decide
  unfold longNumberBound
  -- The power is too large to be worked out.
  generalize digitLimit = d at h hd ⊢
  exact (Nat.length_toDigits_le_iff (by decide) hd).1 h

theorem show?_int {n : Nat} (h : (toString n).length ≤ digitLimit) : (int n).show? = .ok (toString n) := by
  rw [show?, render, wholeText, Int.natAbs_natCast, if_pos (lt_longNumberBound h)]
  rfl

theorem show?_operation {op x y : String} {a b : Tree} (ha : a.show? = .ok x) (hb : b.show? = .ok y) :
    (operation op [a, b]).show? = .ok ("(" ++ (x ++ (" " ++ op ++ " ") ++ y) ++ ")") := by
  unfold show? at ha hb
  simp only [show?, render, renderAll, ha, hb]
  rfl

theorem show?_comparison {op x y : String} {a b : Tree} (ha : a.show? = .ok x) (hb : b.show? = .ok y) :
    (comparison op [a, b]).show? = .ok (x ++ " " ++ op ++ " " ++ y) := by
  unfold show? at ha hb
  simp only [show?, render, renderAll, ha, hb]
  rfl

theorem IsName.lexes {x : String} (h : IsName x) : Lexes x.toList [(.name, .text x)] := by
  have hl := lexes_word h.word
  rwa [h.free] at hl

theorem level_signKind {op : String} (h : isBinary op) : ∃ l, (signKind op).level? = some l ∧ l ≠ 1 := by
  simp only [isBinary, Bool.or_eq_true, beq_iff_eq] at h
  rcases h with ((rfl | rfl) | rfl) | rfl
  · exact ⟨2, rfl, by decide⟩
  · exact ⟨2, rfl, by decide⟩
  · exact ⟨3, rfl, by decide⟩
  · exact ⟨3, rfl, by decide⟩

/-- The tokens of a term, as shown and as read. -/
theorem Term.reads {e : Tree} (h : Term e) : ∃ ts, Shows e ts ∧ Reader.ReadsTerm ts e := by
  induction h with
  | @int n h =>
    refine ⟨_, ⟨_, show?_int h, lexes_number h⟩, Reader.readsTerm_single fun t F hk hv => ?_⟩
    simp [Reader.operand, hk, hv, Payload.tree]
  | @text s h =>
    have hs : (Tree.text s).show? = .ok s := rfl
    refine ⟨_, ⟨_, hs, lexes_literal h⟩, Reader.readsTerm_single fun t F hk hv => ?_⟩
    simp [Reader.operand, hk, hv, Payload.tree]
  | bool b =>
    have hs : (Tree.bool b).show? = .ok (if b then "True" else "False") := rfl
    have hl : Lexes (if b then "True" else "False").toList [(.truth, .text (if b then "True" else "False"))] := by
      cases b with
      | false => exact lexes_word (w := "False") (by decide)
      | true => exact lexes_word (w := "True") (by decide)
    refine ⟨_, ⟨_, hs, hl⟩, Reader.readsTerm_single fun t F hk hv => ?_⟩
    cases b <;> simp [Reader.operand, hk, hv, Payload.string]
  | @name x h =>
    have hs : (Tree.name x).show? = .ok x := rfl
    refine ⟨_, ⟨_, hs, h.lexes⟩, Reader.readsTerm_single fun t F hk hv => ?_⟩
    simp [Reader.operand, hk, hv, Payload.string]
  | @operation op a b ho _ _ iha ihb =>
    obtain ⟨ts, ⟨x, hx, hlx⟩, hra⟩ := iha
    obtain ⟨us, ⟨y, hy, hly⟩, hrb⟩ := ihb
    obtain ⟨l, hl, hn⟩ := level_signKind ho
    have hr := Reader.readsTerm_operation hra hrb hl
    rw [Reader.combine, if_neg hn] at hr
    refine ⟨_, ⟨_, show?_operation hx hy, ?_⟩, hr⟩
    have hc := ((hlx.space (lexes_binary ho)).space hly).close
    have he : ("(" ++ (x ++ (" " ++ op ++ " ") ++ y) ++ ")").toList =
        '(' :: (((x.toList ++ ' ' :: op.toList) ++ ' ' :: y.toList) ++ [')']) := by
      simp
    rw [he]
    exact hc.cons ⟨.leftParen, ['(']⟩ (by decide) ⟨rfl, fun _ _ => rfl, rfl⟩ fun _ => rfl

theorem Formula.reads {e : Tree} (h : Formula e) : ∃ ts, Shows e ts ∧ Reader.ReadsFormula ts e := by
  cases h with
  | term h =>
    obtain ⟨ts, hs, hr⟩ := h.reads
    exact ⟨ts, hs, hr.formula⟩
  | @comparison op a b ho ha hb =>
    obtain ⟨ts, ⟨x, hx, hlx⟩, hra⟩ := ha.reads
    obtain ⟨us, ⟨y, hy, hly⟩, hrb⟩ := hb.reads
    refine ⟨_, ⟨_, show?_comparison hx hy, ?_⟩, Reader.readsFormula_comparison hra hrb op⟩
    have he : (x ++ " " ++ op ++ " " ++ y).toList = (x.toList ++ ' ' :: op.toList) ++ ' ' :: y.toList := by
      simp
    rw [he]
    exact (hlx.space (lexes_comparing ho)).space hly

/-- The texts of the statements about one expression. -/
theorem show?_statement {v : String} {e : Tree} (h : e.show? = .ok v) :
    (∀ x, (assign x e).show? = .ok ("let " ++ x ++ " be " ++ v)) ∧ (give e).show? = .ok ("return " ++ v) ∧
      (print e).show? = .ok ("print " ++ v) ∧ (jump e).show? = .ok ("goto instruction " ++ v) ∧
      (mark e).show? = .ok ("@" ++ v) := by
  unfold show? at h
  simp only [show?, render, h]
  exact ⟨fun _ => rfl, rfl, rfl, rfl, rfl⟩

open Reader in
theorem takes_let (x : String) : start.Takes [(.letWord, .text "let"), (.name, .text x), (.beWord, .text "be")]
    ⟨.operand, [.assigned x, .program []]⟩ := by
  have h₁ : start.Takes [(.letWord, .text "let")] ⟨.target, [.program []]⟩ :=
    .cons (fun t hk _ => by simp [start, feed, atStatement, begin, hk]) .nil
  have h₂ : Takes ⟨.target, [.program []]⟩ [(.name, .text x)] ⟨.be x, [.program []]⟩ :=
    .cons (fun t hk hv => by simp [feed, expect, hk, hv, Payload.string]) .nil
  have h₃ : Takes ⟨.be x, [.program []]⟩ [(.beWord, .text "be")] ⟨.operand, [.assigned x, .program []]⟩ :=
    .cons (fun t hk _ => by simp [feed, expect, hk]) .nil
  exact h₁.append (h₂.append h₃)

open Reader in
theorem takes_goto (n : Nat) : start.Takes
    [(.gotoWord, .text "goto"), (.instructionWord, .text "instruction"), (.number, .whole n)]
    ⟨.ended (.jump (.int n)), [.program []]⟩ := by
  have h₁ : start.Takes [(.gotoWord, .text "goto")] ⟨.instruction, [.program []]⟩ :=
    .cons (fun t hk _ => by simp [start, feed, atStatement, begin, hk]) .nil
  have h₂ : Takes ⟨.instruction, [.program []]⟩ [(.instructionWord, .text "instruction")] ⟨.jumpLabel, [.program []]⟩ :=
    .cons (fun t hk _ => by simp [feed, expect, hk]) .nil
  have h₃ : Takes ⟨.jumpLabel, [.program []]⟩ [(.number, .whole n)] ⟨.ended (.jump (.int n)), [.program []]⟩ :=
    .cons (fun t hk hv => by simp [feed, expect, hk, hv, Payload.tree]) .nil
  exact h₁.append (h₂.append h₃)

open Reader in
theorem takes_mark (n : Nat) : start.Takes [(.marker, .text "@"), (.number, .whole n)]
    ⟨.ended (.mark (.int n)), [.program []]⟩ := by
  have h₁ : start.Takes [(.marker, .text "@")] ⟨.markLabel, [.program []]⟩ :=
    .cons (fun t hk _ => by simp [start, feed, atStatement, begin, hk]) .nil
  have h₂ : Takes ⟨.markLabel, [.program []]⟩ [(.number, .whole n)] ⟨.ended (.mark (.int n)), [.program []]⟩ :=
    .cons (fun t hk hv => by simp [feed, expect, hk, hv, Payload.tree]) .nil
  exact h₁.append h₂

open Reader in
/-- The tokens of a line, as shown and as read. -/
theorem Line.reads {s : Tree} (h : Line s) : ∃ ts, Shows s ts ∧ ∃ r, start.Takes ts r ∧ r.Ends 0 [s] := by
  cases h with
  | formula h =>
    obtain ⟨ts, hs, hr⟩ := h.reads
    exact ⟨ts, hs, hr.line .nil takesOperand_start trivial fun _ => rfl⟩
  | @assign x e hx h =>
    obtain ⟨ts, ⟨v, hv, hl⟩, hr⟩ := h.reads
    have hw : Lexes "let".toList [(.letWord, .text "let")] := lexes_word (by decide)
    have hb : Lexes "be".toList [(.beWord, .text "be")] := lexes_word (by decide)
    have he : ("let " ++ x ++ " be " ++ v).toList =
        (("let".toList ++ ' ' :: x.toList) ++ ' ' :: "be".toList) ++ ' ' :: v.toList := by simp
    refine ⟨_, ⟨_, (show?_statement hv).1 x, ?_⟩, hr.line (takes_let x) (takesOperand _) trivial fun _ => rfl⟩
    rw [he]
    exact ((hw.space hx.lexes).space hb).space hl
  | give h =>
    obtain ⟨ts, ⟨v, hv, hl⟩, hr⟩ := h.reads
    have hw : Lexes "return".toList [(.returnWord, .text "return")] := lexes_word (by decide)
    have ht : start.Takes [(.returnWord, .text "return")] ⟨.operand, [.given, .program []]⟩ :=
      .cons (fun t hk _ => by simp [start, feed, atStatement, begin, hk]) .nil
    have he : ("return " ++ v).toList = "return".toList ++ ' ' :: v.toList := by simp
    refine ⟨_, ⟨_, (show?_statement hv).2.1, ?_⟩, hr.line ht (takesOperand _) trivial fun _ => rfl⟩
    rw [he]
    exact hw.space hl
  | print h =>
    obtain ⟨ts, ⟨v, hv, hl⟩, hr⟩ := h.reads
    have hw : Lexes "print".toList [(.printWord, .text "print")] := lexes_word (by decide)
    have ht : start.Takes [(.printWord, .text "print")] ⟨.printable, [.program []]⟩ :=
      .cons (fun t hk _ => by simp [start, feed, atStatement, begin, hk]) .nil
    have he : ("print " ++ v).toList = "print".toList ++ ' ' :: v.toList := by simp
    refine ⟨_, ⟨_, (show?_statement hv).2.2.1, ?_⟩, hr.line ht (takesOperand_printable _) trivial fun _ => rfl⟩
    rw [he]
    exact hw.space hl
  | @jump n h =>
    have hw : Lexes "goto".toList [(.gotoWord, .text "goto")] := lexes_word (by decide)
    have hi : Lexes "instruction".toList [(.instructionWord, .text "instruction")] := lexes_word (by decide)
    have he : ("goto instruction " ++ toString n).toList =
        ("goto".toList ++ ' ' :: "instruction".toList) ++ ' ' :: (toString n).toList := by simp
    refine ⟨_, ⟨_, (show?_statement (show?_int h)).2.2.2.1, ?_⟩, _, takes_goto n, ends_of_feed rfl⟩
    rw [he]
    exact (hw.space hi).space (lexes_number h)
  | @mark n h =>
    have he : ("@" ++ toString n).toList = '@' :: (toString n).toList := by simp
    refine ⟨_, ⟨_, (show?_statement (show?_int h)).2.2.2.2, ?_⟩, _, takes_mark n, ends_of_feed rfl⟩
    rw [he]
    exact (lexes_number h).cons ⟨.marker, ['@']⟩ (by decide) ⟨rfl, fun _ _ => rfl, rfl⟩ fun _ => rfl

end Tree

/-- A formula or a statement on one line has a text, and the text reads as the program that is this line alone. -/
theorem readProgram_shown {s : Tree} (h : s.Line) : ∃ text, s.show? = .ok text ∧ readProgram text = .ok [s] := by
  obtain ⟨ts, ⟨text, ht, hl⟩, r, hr, he⟩ := h.reads
  exact ⟨text, ht, readProgram_ok_iff_spells.2 (hl.spells hr he)⟩

/-- A comparison of operations that nest on both sides, with a quote inside a string. -/
def nestedLine : Tree :=
  .assign "be_x1" (.comparison "<=" [
    .operation "-" [.int 1, .operation "-" [.name "_y", .text "\"a\\\" (#\""]],
    .operation "*" [.operation "/" [.bool true, .int 0], .int 20]])

theorem readProgram_shown_nested :
    nestedLine.Line ∧
      ∃ text, nestedLine.show? = .ok text ∧ readProgram text = .ok [nestedLine] := by
  have hq : IsLiteral "\"a\\\" (#\"" := by
    refine ⟨['a', '\\', '"', ' ', '(', '#'], ?_, by decide⟩
    refine .plain (by decide) (by decide) (by decide) (.escaped (by decide) ?_)
    refine .plain (by decide) (by decide) (by decide) (.plain (by decide) (by decide) (by decide) ?_)
    exact .plain (by decide) (by decide) (by decide) .nil
  have hl : nestedLine.Line := by
    refine .assign ⟨by decide, rfl⟩ (.comparison rfl (.operation rfl (.int ?_) ?_) (.operation rfl ?_ (.int ?_)))
    · decide
    · exact .operation rfl (.name ⟨by decide, rfl⟩) (.text hq)
    · exact .operation rfl (.bool true) (.int (by decide))
    · decide
  exact ⟨hl, readProgram_shown hl⟩

end Pseudocode
