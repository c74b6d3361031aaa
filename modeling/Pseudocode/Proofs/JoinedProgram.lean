import Mathlib
import Pseudocode.Proofs.ReaderBehind

/-!
# Two programs joined by a line end

Where the reader can close a program behind a token of a line, a statement is complete (`completes_of_closer`). So it
can take the end of the line first (`Ends.newline`), and where it can take the end marker it can begin another
statement (`feed_begin`). With what is known of the tokens of two texts, a text of statements and another one joined by
a line end are the statements of the one and then those of the other: `Spells.joined`.
-/

namespace Pseudocode

namespace Reader

/-! ## Behind a token of a line -/

/-- No line is at its start, and behind a word that asks for one a body is waited for. -/
def Amid (t : Token) (r : Reader) : Prop :=
  r.mode ≠ .statement ∧ (t.kind.asksBlock → r.mode = .body)

section

variable {t : Token} {F : List Frame} {r : Reader}

theorem begin_amid (h : begin t F = some r) : Amid t r := by
  unfold begin at h
  split at h <;> cases h
  all_goals exact ⟨by simp, by simp [*, TokenKind.asksBlock]⟩

theorem operand_amid (h : operand t F = some r) : Amid t r := by
  unfold operand at h
  split at h <;> cases h
  all_goals exact ⟨by simp, by simp [*, TokenKind.asksBlock]⟩

theorem atStatement_amid (ht : t.kind.isReal) (h : atStatement t F = some r) : Amid t r := by
  unfold atStatement at h
  split at h
  · rcases Option.or_eq_some_iff.1 h with h | ⟨-, h⟩
    · exact begin_amid h
    · exact operand_amid h
  · split at h
    · exact absurd ‹_› (TokenKind.isReal_ne ht rfl)
    · exact absurd ‹_› (TokenKind.isReal_ne ht rfl)
    · exact begin_amid h
  · exact begin_amid h
  · rw [if_neg (TokenKind.isReal_ne ht rfl)] at h
    exact begin_amid h
  · cases h

theorem complete_amid {s : Tree} (ht : t.kind.isReal) (h : complete t s F = some r) : Amid t r := by
  rw [complete, if_neg (TokenKind.isReal_ne ht rfl)] at h
  induction F generalizing s with
  | nil => cases h
  | cons f F ih =>
    cases f with
    | thenPart test =>
      rw [unwind] at h
      split at h
      · cases h
        exact ⟨by simp, fun _ => rfl⟩
      · exact ih h
    | elsePart test body => exact ih h
    | block done => exact atStatement_amid ht h
    | program done => exact atStatement_amid ht h
    | _ => cases h

theorem conclude_amid {e : Tree} {c : Bool} (ht : t.kind.isReal) (h : conclude t e c F = some r) : Amid t r := by
  unfold conclude at h
  split at h
  case h_1 | h_2 =>
    split at h <;> cases h
    exact ⟨by simp, by simp [*, TokenKind.asksBlock]⟩
  case h_3 | h_4 | h_5 => exact complete_amid ht h
  case h_6 => exact atStatement_amid ht h
  case h_7 => cases h

theorem feed_amid {r' : Reader} (ht : t.kind.isReal) (h : r.feed t = some r') : Amid t r' := by
  obtain ⟨m, F⟩ := r
  cases m with
  | statement => exact atStatement_amid ht h
  | operand => exact operand_amid h
  | printable =>
    rcases Option.or_eq_some_iff.1 h with h | ⟨-, h⟩
    · exact operand_amid h
    · exact complete_amid ht h
  | operator e c =>
    simp only [feed, operator] at h
    split at h
    · cases h
      refine ⟨by simp, fun ha => ?_⟩
      rename_i hl
      generalize t.kind = k at ha hl
      cases k <;> simp [TokenKind.asksBlock, TokenKind.level?] at ha hl
    · exact conclude_amid ht h
  | body =>
    have hn : t.kind ≠ .newline := TokenKind.isReal_ne ht rfl
    simp only [feed, if_neg hn] at h
    exact begin_amid h
  | ended s => exact complete_amid ht h
  | bodied test body =>
    simp only [feed] at h
    split at h
    · cases h
      exact ⟨by simp, fun _ => rfl⟩
    · exact complete_amid ht h
  | indent => exact absurd (expect_eq_some h).1 (TokenKind.isReal_ne ht rfl)
  | accepted => cases h
  | thenWord =>
    obtain ⟨-, rfl⟩ := expect_eq_some h
    exact ⟨by simp, fun _ => rfl⟩
  | _ =>
    obtain ⟨hk, rfl⟩ := expect_eq_some h
    exact ⟨by simp, by simp [hk, TokenKind.asksBlock]⟩

end

/-! ## The end of a program -/

/-- The reader can take dedents and the end marker, and has read some items then. -/
def Ends (r : Reader) (n : Nat) (done : List Tree) : Prop :=
  r.feedAll (Indenter.dedents n 1 ++ [endMarker none]) = .ok ⟨.accepted, [.program done]⟩

/-- The tokens that close blocks and programs. -/
def Closer (t : Token) : Prop :=
  t.kind = .dedent ∨ t.kind = .endMarker

theorem closers (n line : Nat) (m : Option Nat) :
    ∃ d ds, Indenter.dedents n line ++ [endMarker m] = d :: ds ∧ Closer d := by
  cases n with
  | zero => exact ⟨_, [], rfl, .inr rfl⟩
  | succ n => exact ⟨.ofLayout .dedent line, Indenter.dedents n line ++ [endMarker m], rfl, .inl rfl⟩

theorem Closer.follows {t : Token} (h : Closer t) : follows t.kind = true ∧ t.kind ≠ .newline := by
  rcases h with h | h <;> rw [h] <;> decide

theorem Closer.begin {t : Token} (h : Closer t) (F : List Frame) : begin t F = none := by
  unfold Reader.begin
  rcases h with h | h <;> rw [h]

theorem Ends.feed {r : Reader} {n : Nat} {done : List Tree} (h : Ends r n done) :
    ∃ d r', Closer d ∧ r.feed d = some r' := by
  obtain ⟨d, ds, he, hd⟩ := closers n 1 none
  rw [Ends, he] at h
  obtain ⟨r', hr, -⟩ := feedAll_cons_ok h
  exact ⟨d, r', hd, hr⟩

theorem Ends.mode_ne {r : Reader} {n : Nat} {done : List Tree} (h : Ends r n done) :
    r.mode ≠ .body ∧ r.mode ≠ .indent := by
  obtain ⟨d, r', hd, hr⟩ := h.feed
  obtain ⟨m, F⟩ := r
  constructor
  · rintro rfl
    simp only [Reader.feed, if_neg hd.follows.2, hd.begin] at hr
    cases hr
  · rintro rfl
    have hk := (expect_eq_some hr).1
    rcases hd with hd | hd <;> rw [hd] at hk <;> cases hk

/-- An expression ends a statement where a block or the program can be closed behind it. -/
theorem conclude_of_closer {d : Token} {e : Tree} {c : Bool} {F : List Frame} {r : Reader} (hF : Inside F)
    (hd : Closer d) (h : conclude d e c F = some r) : ∃ s G, ∀ t, conclude t e c F = complete t s G := by
  match F with
  | .assigned x :: G => exact ⟨.assign x e, G, fun t => rfl⟩
  | .given :: G => exact ⟨.give e, G, fun t => rfl⟩
  | .printed :: G => exact ⟨.print e, G, fun t => rfl⟩
  | .paren :: G | .tested :: G => rcases hd with hd | hd <;> simp [conclude, hd] at h
  | .program [] :: G => exact absurd hF id
  | .program (d :: done) :: G => cases h
  | [] | .negated :: G | .left _ _ _ :: G | .thenPart _ :: G | .elsePart _ _ :: G | .block _ :: G => cases h

/-- A statement is complete where a block or the program can be closed behind a token of a line. -/
theorem completes_of_closer {r r' : Reader} {d : Token} (hg : Grounded r) (hm : r.mode ≠ .statement) (hd : Closer d)
    (h : r.feed d = some r') :
    ∃ s F, ∀ t, Closer t ∨ t.kind = .newline → r.feed t = complete t s F := by
  have hf : ∀ {t : Token}, Closer t ∨ t.kind = .newline → follows t.kind = true := by
    rintro t (ht | ht)
    · exact ht.follows.1
    · rw [ht]; rfl
  obtain ⟨m, F⟩ := r
  cases m with
  | statement => exact absurd rfl hm
  | operand =>
    rw [feed, operand_of_follows hd.follows.1] at h
    cases h
  | printable => exact ⟨.print .none, F, fun t ht => by simp only [feed, operand_of_follows (hf ht), Option.none_or]⟩
  | operator e c =>
    have hl : ∀ {t : Token}, Closer t ∨ t.kind = .newline → feed ⟨.operator e c, F⟩ t =
        conclude t (settle 0 e c F).1 (settle 0 e c F).2.1 (settle 0 e c F).2.2 := fun ht => by
      simp only [feed, operator, level?_of_follows (hf ht)]
    rw [hl (.inl hd)] at h
    obtain ⟨s, G, hc⟩ := conclude_of_closer (settle_inside 0 e c hg) hd h
    exact ⟨s, G, fun t ht => (hl ht).trans (hc t)⟩
  | body =>
    simp only [feed, if_neg hd.follows.2, hd.begin] at h
    cases h
  | ended s => exact ⟨s, F, fun t ht => rfl⟩
  | bodied test body =>
    refine ⟨.when test body, F, fun t ht => ?_⟩
    have he : t.kind ≠ .elseWord := by
      rcases ht with (ht | ht) | ht <;> rw [ht] <;> decide
    simp only [feed, if_neg he]
  | accepted => cases h
  | _ =>
    have hk := (expect_eq_some h).1
    rcases hd with hd | hd <;> rw [hd] at hk <;> cases hk

theorem place_of_unwind {s : Tree} {F : List Frame} {t : Token} {r : Reader} (h : unwind t s F = some r) :
    ∃ r', place s F = some r' := by
  match F with
  | .thenPart _ :: F | .elsePart _ _ :: F | .block _ :: F | .program _ :: F => exact ⟨_, rfl⟩
  | [] | .negated :: F | .left _ _ _ :: F | .paren :: F | .assigned _ :: F | .given :: F | .printed :: F
  | .tested :: F => cases h

/-- The end of a line changes nothing about how the program ends. -/
theorem Ends.newline {r : Reader} {k : Nat} {done : List Tree} (h : Ends r k done) (hg : Grounded r)
    (hm : r.mode ≠ .statement) {n : Token} (hn : n.kind = .newline) :
    ∃ r', r.feed n = some r' ∧ Ends r' k done := by
  obtain ⟨d, ds, he, hd⟩ := closers k 1 none
  unfold Ends at h ⊢
  rw [he] at h ⊢
  obtain ⟨r₁, h₁, h⟩ := feedAll_cons_ok h
  obtain ⟨s, F, hc⟩ := completes_of_closer hg hm hd h₁
  -- Closing the block would put the statement in its place first, and that is what the end of the line does.
  rw [hc d (.inl hd), complete, if_neg hd.follows.2] at h₁
  obtain ⟨r', hp⟩ := place_of_unwind h₁
  refine ⟨r', ?_, feedAll_cons ((feed_place hp hd.follows.2).trans h₁) h⟩
  rw [hc n (.inr hn), complete, if_pos hn, hp]

section

variable {n n' : Token} (hn : n.kind = .newline) (hn' : n'.kind = .newline)

include hn hn'

theorem complete_newline (s : Tree) (F : List Frame) : complete n' s F = complete n s F := by
  rw [complete, complete, if_pos hn', if_pos hn]

theorem conclude_newline (e : Tree) (c : Bool) {F : List Frame} (hF : Inside F) :
    conclude n' e c F = conclude n e c F := by
  match F with
  | .assigned _ :: F | .given :: F | .printed :: F => exact complete_newline hn hn' _ F
  | .paren :: F | .tested :: F => simp only [conclude, hn, hn']
  | .program [] :: F => exact absurd hF id
  | .program (d :: done) :: F => rfl
  | [] | .negated :: F | .left _ _ _ :: F | .thenPart _ :: F | .elsePart _ _ :: F | .block _ :: F => rfl

/-- Behind a token of a line, all line ends are alike. -/
theorem feed_newline {r : Reader} (hg : Grounded r) (hm : r.mode ≠ .statement) : r.feed n' = r.feed n := by
  have ho : ∀ F, operand n' F = none ∧ operand n F = none := fun F =>
    ⟨operand_of_follows (by rw [hn']; rfl) F, operand_of_follows (by rw [hn]; rfl) F⟩
  have hc := complete_newline hn hn'
  obtain ⟨m, F⟩ := r
  cases m with
  | statement => exact absurd rfl hm
  | operand => exact (ho F).1.trans (ho F).2.symm
  | printable => simp only [feed, ho, hc]
  | operator e c =>
    simp only [feed, operator, hn, hn', TokenKind.level?]
    exact conclude_newline hn hn' _ _ (settle_inside 0 e c hg)
  | body => simp only [feed, hn, hn', if_true]
  | ended s => exact hc ..
  | bodied test body => simp only [feed, hn, hn', hc]
  | accepted => rfl
  | _ => simp only [feed, expect, hn, hn', reduceCtorEq, if_false]

end

section

variable {e t : Token} {F G : List Frame} {r : Reader} (he : e.kind = .endMarker) (hb : begin t G = some r)

include he hb

theorem atStatement_begin (h : atStatement e F = some ⟨.accepted, G⟩) : atStatement t F = some r := by
  have hn : ∀ F, begin e F = none := Closer.begin (.inr he)
  match F with
  | .program [] :: F =>
    rw [atStatement, hn, operand_of_follows (by rw [he]; rfl)] at h
    cases h
  | .program (d :: done) :: F =>
    simp only [atStatement, he, Option.some.injEq, Reader.mk.injEq, true_and] at h
    subst h
    obtain ⟨-, hl, -, -, hm⟩ := begin_kind hb
    rw [atStatement]
    split
    · exact absurd ‹_› hl
    · exact absurd ‹_› hm
    · exact hb
  | .block [] :: F =>
    rw [atStatement, hn] at h
    cases h
  | .block (d :: done) :: F =>
    rw [atStatement, hn, he] at h
    cases h
  | [] | .negated :: F | .left _ _ _ :: F | .paren :: F | .assigned _ :: F | .given :: F | .printed :: F
  | .tested :: F | .thenPart _ :: F | .elsePart _ _ :: F => cases h

theorem complete_begin {s : Tree} (h : complete e s F = some ⟨.accepted, G⟩) : complete t s F = some r := by
  obtain ⟨-, hl, hw, -⟩ := begin_kind hb
  rw [complete, if_neg (by rw [he]; decide)] at h
  rw [complete, if_neg hl]
  induction F generalizing s with
  | nil => cases h
  | cons f F ih =>
    cases f with
    | thenPart test =>
      rw [unwind, if_neg (by rw [he]; decide)] at h
      rw [unwind, if_neg hw]
      exact ih h
    | elsePart test body => exact ih h
    | block | program => exact atStatement_begin he hb h
    | _ => cases h

theorem conclude_begin {e' : Tree} {c : Bool} (h : conclude e e' c F = some ⟨.accepted, G⟩) :
    conclude t e' c F = some r := by
  unfold conclude at h ⊢
  split at h
  case h_1 | h_2 =>
    rw [he] at h
    simp at h
  case h_3 | h_4 | h_5 => exact complete_begin he hb h
  case h_6 => exact atStatement_begin he hb h
  case h_7 => cases h

/-- A statement can begin where the program can end. -/
theorem feed_begin {r₀ : Reader} (h : r₀.feed e = some ⟨.accepted, G⟩) : r₀.feed t = some r := by
  have hf := (begin_kind hb).1
  obtain ⟨m, F⟩ := r₀
  cases m with
  | statement => exact atStatement_begin he hb h
  | operand =>
    rw [feed, operand_of_follows (by rw [he]; rfl)] at h
    cases h
  | printable =>
    simp only [feed, operand_of_follows hf, operand_of_follows (show follows e.kind = true by rw [he]; rfl),
      Option.none_or] at h ⊢
    exact complete_begin he hb h
  | operator e' c =>
    have hl : e.kind.level? = none := by rw [he]; rfl
    simp only [feed, operator, level?_of_follows hf, hl] at h ⊢
    exact conclude_begin he hb h
  | body =>
    simp only [feed, he, reduceCtorEq, if_false, Closer.begin (.inr he)] at h
  | ended s => exact complete_begin he hb h
  | bodied test body =>
    simp only [feed, he, reduceCtorEq, if_false, if_neg (begin_kind hb).2.2.1] at h ⊢
    exact complete_begin he hb h
  | accepted => cases h
  | _ => cases he.symm.trans (expect_eq_some h).1

end

end Reader

/-! ## Two programs -/

namespace Grammar

/-- How many parentheses a symbol opens, less those that it closes. -/
def balance : Sym → Int
  | .terminal .leftParen => 1
  | .terminal .rightParen => -1
  | _ => 0

theorem openParens_flatten {ss : List Sym} {us : List (List Token)}
    (h : List.Forall₂ (fun s ts => openParens ts = balance s) ss us) :
    openParens us.flatten = (ss.map balance).sum := by
  induction h with
  | nil => rfl
  | cons h _ ih => rw [List.flatten_cons, openParens_append, h, ih, List.map_cons, List.sum_cons]

theorem openParens_of_parses {ss : List Sym} {ts : List Token} {vs : List Tree} (h : Parses ss ts vs) :
    openParens ts = (ss.map balance).sum := by
  have ht : ∀ t : Token, openParens [t] = balance (tok t.kind) := by
    intro t
    simp only [openParens, amount_single]
    cases t.kind <;> rfl
  have hr : ∀ (r : Rule) (us : List (List Token)), List.Forall₂ (fun s ts => openParens ts = balance s) r.right us →
      openParens us.flatten = balance (part r.left) := by
    intro r us hu
    rw [openParens_flatten hu]
    cases r <;> rfl
  obtain ⟨us, rfl, hu⟩ := h.forall_pieces ht hr
  exact openParens_flatten hu

end Grammar

theorem readProgram_ok_iff {source : String} {program : List Tree} :
    readProgram source = .ok program ↔ (tokenize 1 true source.toList).fault = none ∧
      Reader.programOf (tokens 1 true source.toList) = .ok program := by
  unfold readProgram tokens
  cases hf : (tokenize 1 true source.toList).fault with
  | none => simp [hf]
  | some f =>
    cases hr : Reader.start.feedAll ((tokenize 1 true source.toList).items.map Prod.fst) <;>
      simp [hf, hr, bind, Except.bind]

theorem toList_lines (a b : String) : (a ++ "\n" ++ b).toList = a.toList ++ '\n' :: b.toList := by
  rw [String.toList_append, String.toList_append, List.append_assoc]
  rfl

/-- The lexer takes all of a text, and behind what it has given out the reader can close a program. -/
def Spells (text : List Char) (program : List Tree) : Prop :=
  (Piece.cut text).2 = [] ∧ ∃ s r, (Stage.start 1).run (Piece.cut text).1 = .ok s ∧
    Reader.start.feedAll s.out = .ok r ∧ r.Ends (s.indenter.levels.length - 1) program.reverse

theorem readProgram_ok_iff_spells {source : String} {program : List Tree} :
    readProgram source = .ok program ↔ Spells source.toList program := by
  rw [readProgram_ok_iff, Reader.programOf_eq_ok]
  constructor
  · rintro ⟨hf, x, hx, hp⟩
    obtain ⟨done, rfl, rfl⟩ := Reader.program?_eq_some hp
    obtain ⟨hc, s, hr⟩ := run_of_fault hf
    obtain ⟨-, n, m, ht⟩ := tokens_of_run hc hr true
    rw [ht, List.append_assoc] at hx
    obtain ⟨r, h₁, h₂⟩ := Reader.feedAll_split hx
    refine ⟨hc, s, r, hr, h₁, Reader.feedAll_content ?_ (by rwa [List.reverse_reverse])⟩
    simp [endMarker]
  · rintro ⟨hc, s, r, hr, hs, he⟩
    obtain ⟨hf, n, m, ht⟩ := tokens_of_run hc hr true
    refine ⟨hf, ⟨.accepted, [.program program.reverse]⟩, ?_, by simp [Reader.program?]⟩
    rw [ht, List.append_assoc]
    refine Reader.feedAll_append hs (Reader.feedAll_content ?_ he)
    simp [endMarker]

section

variable {s : Stage} {r : Reader}

theorem parens_of_ends {line : Nat} {text : List Char} {ps : List Piece} (hr : Reached line text ps s)
    (hs : Reader.start.feedAll s.out = .ok r) {n : Nat} {done : List Tree} (he : r.Ends n done) :
    s.scanner.parens = 0 := by
  have hp : Reader.programOf (s.out ++ (Indenter.dedents n 1 ++ [endMarker none])) = .ok done.reverse :=
    Reader.programOf_eq_ok.2 ⟨_, Reader.feedAll_append hs he, rfl⟩
  have hb := Grammar.openParens_of_parses (Reader.yields_of_programOf hp)
  have hl : openParens (Indenter.dedents n 1 ++ [endMarker none]) = 0 := by
    refine openParens_layout fun t ht => ?_
    rcases List.mem_append.1 ht with ht | ht
    · rw [Indenter.kind_dedents ht]
      rfl
    · rw [List.mem_singleton.1 ht]
      rfl
  rw [openParens_append, hl, add_zero] at hb
  exact hr.inLine.parens.trans hb

theorem wait_of_ends (ht : s.Tracks) (hs : Reader.start.feedAll s.out = .ok r) {n : Nat} {done : List Tree}
    (he : r.Ends n done) : s.tracker.wait = .no := by
  have hreal : ∀ {k : TokenKind}, k.asksBlock → k.isReal := by
    intro k hk
    cases k <;> first | rfl | cases hk
  -- Behind a word that asks for a block, a body is waited for, and no program can be closed there.
  have hbody : ∀ {us : List Token} {t : Token} {r' : Reader}, t.kind.asksBlock →
      Reader.start.feedAll (us ++ [t]) = .ok r' → r'.mode = .body := by
    intro us t r' ha h
    obtain ⟨r₁, -, h₁⟩ := Reader.feedAll_snoc h
    exact (Reader.feed_amid (hreal ha) h₁).2 ha
  rw [ht.tracker]
  apply LineTracker.wait_no
  · rintro ⟨pre, a, m, ho, ha, hm⟩
    rw [ho, List.append_cons] at hs
    obtain ⟨⟨mode, F⟩, h₁, h₂⟩ := Reader.feedAll_snoc hs
    cases show mode = .body from hbody ha h₁
    simp only [Reader.feed, if_pos hm, Option.some.injEq] at h₂
    subst h₂
    exact he.mode_ne.2 rfl
  · intro pre t ho
    rw [ho] at hs
    by_contra ha
    exact he.mode_ne.1 (hbody (by simpa using ha) hs)

theorem out_ne_nil (hs : Reader.start.feedAll s.out = .ok r) {n : Nat} {done : List Tree} (he : r.Ends n done) :
    s.out ≠ [] := by
  intro ho
  rw [ho] at hs
  cases hs
  obtain ⟨d, r', hd, hr⟩ := he.feed
  rcases Option.or_eq_some_iff.1 hr with hb | ⟨-, ho⟩
  · rw [hd.begin] at hb
    cases hb
  · rw [Reader.operand_of_follows hd.follows.1] at ho
    cases ho

end

namespace Reader

/-- A program of statements can be closed behind its last line whether that is ended or not. -/
theorem Ends.lineEnded {ts ts' : List Token} (hl : LineEnded ts ts') {r : Reader} (hr : start.feedAll ts = .ok r)
    {n : Nat} {done : List Tree} (he : r.Ends n done) (hs : ∀ s ∈ done, s.isStatement) :
    ∃ r', start.feedAll ts' = .ok r' ∧ r'.Ends n done := by
  cases hl with
  | same => exact ⟨r, hr, he⟩
  | @ended pre nl hre hn h =>
    obtain ⟨pre, t, rfl, ht⟩ := hre
    have hne : pre ++ [t] ≠ [] := by simp
    have hm : ∀ {r₀}, start.feedAll (pre ++ [t]) = .ok r₀ → r₀.mode ≠ .statement := by
      intro r₀ h₀
      obtain ⟨r₁, -, h₁⟩ := feedAll_snoc h₀
      exact (feed_amid ht h₁).1
    rcases h with rfl | ⟨m, hmk, rfl⟩
    · obtain ⟨r', h', he'⟩ := he.newline (grounded_of_statements hne hr he hs) (hm hr) hn
      exact ⟨r', feedAll_append hr (feedAll_cons h' rfl), he'⟩
    -- The line was ended before, by another token of the same kind.
    · obtain ⟨r₀, h₀, h₁⟩ := feedAll_snoc hr
      have hg : Grounded r₀ := grounded_of_statements hne h₀ (feedAll_cons h₁ he) hs
      refine ⟨r, feedAll_append h₀ (feedAll_cons ?_ rfl), he⟩
      rw [feed_newline hmk hn hg (hm h₀), h₁]

/-- Behind the end of one program the reader reads another one, and adds its statements. -/
theorem Ends.feedAll {r : Reader} {n : Nat} {done : List Tree} (he : r.Ends n done) {ts : List Token}
    {more : List Tree} (h : start.feedAll ts = .ok ⟨.accepted, [.program more]⟩) (hs : ∀ s ∈ more, s.isStatement) :
    r.feedAll (Indenter.dedents n 1 ++ ts) = .ok ⟨.accepted, [.program (more ++ done)]⟩ := by
  obtain ⟨r₁, h₁, h₂⟩ := feedAll_snoc he
  match ts with
  | [] => cases h
  | t :: ts =>
    obtain ⟨r₀, hb, h₀⟩ := begins_of_statements h hs
    have hb' : begin t [.program done] = some (r₀.behind done) := by
      rw [← List.nil_append done, ← show [Frame.program []].map (Frame.behind done) = [.program ([] ++ done)] from rfl,
        begin_behind, hb]
      rfl
    exact feedAll_append h₁ (feedAll_cons (feed_begin rfl hb' h₂) (feedAll_behind done (begin_grounded hb) h₀))

end Reader

/-- Two programs joined by a line end are one program. -/
theorem Spells.joined {a b : List Char} {p q : List Tree} (ha : Spells a p) (hb : Spells b q)
    (hp : ∀ t ∈ p, t.isStatement) (hq : ∀ t ∈ q, t.isStatement) : Spells (a ++ '\n' :: b) (p ++ q) := by
  obtain ⟨hca, sa, ra, hra, hfa, hea⟩ := ha
  obtain ⟨hcb, sb, rb, hrb, hfb, heb⟩ := hb
  have hs : Reached 1 a (Piece.cut a).1 sa := ⟨List.prefix_refl _, hra⟩
  obtain ⟨out, s, hl, hc, hr, htw⟩ := Stage.run_joined hca hra (parens_of_ends hs hfa hea)
    (wait_of_ends hs.tracks hfa hea) hrb (out_ne_nil hfb heb)
  obtain ⟨r, hf, he⟩ := hea.lineEnded hl hfa (by simpa using hp)
  have hall := Reader.feedAll_append hf (he.feedAll (Reader.feedAll_append hfb heb) (by simpa using hq))
  rw [← List.append_assoc, ← List.append_assoc] at hall
  obtain ⟨r', hf', he'⟩ := Reader.feedAll_split hall
  refine ⟨hc.trans hcb, s, r', hr, Reader.feedAll_content ?_ hf', ?_⟩
  · exact htw.out.trans (List.map_append ..).symm
  · rwa [htw.indenter, List.reverse_append]

/-- A text of statements and another one, on lines of their own, are read as the statements of the one and then those
of the other. -/
theorem readProgram_lines (a b : String) (p q : List Tree) (ha : readProgram a = .ok p) (hb : readProgram b = .ok q)
    (hp : ∀ t ∈ p, t.isStatement) (hq : ∀ t ∈ q, t.isStatement) : readProgram (a ++ "\n" ++ b) = .ok (p ++ q) := by
  rw [readProgram_ok_iff_spells] at ha hb ⊢
  rw [toList_lines]
  exact ha.joined hb hp hq

/-- Statements that end inside of a block, and others that begin and end with line ends. -/
def blockSource : String :=
  "if a < 1, then\n  let a be 2\n  if a > 1, then print a # more"

def choiceSource : String :=
  "\nif a < 3, then @1\nelse\n  print\n"

def blockItems : List Tree :=
  [.when (.comparison "<" [.name "a", .int 1])
    (.list [.assign "a" (.int 2), .when (.comparison ">" [.name "a", .int 1]) (.print (.name "a"))])]

def choiceItems : List Tree :=
  [.choose (.comparison "<" [.name "a", .int 3]) (.mark (.int 1)) (.print .none)]

theorem readProgram_lines_blocks :
    readProgram blockSource = .ok blockItems ∧ readProgram choiceSource = .ok choiceItems ∧
      readProgram (blockSource ++ "\n" ++ choiceSource) = .ok (blockItems ++ choiceItems) := by
  have ha : readProgram blockSource = .ok blockItems := by cbv
  have hb : readProgram choiceSource = .ok choiceItems := by cbv
  exact ⟨ha, hb, readProgram_lines _ _ _ _ ha hb (by decide) (by decide)⟩

end Pseudocode
