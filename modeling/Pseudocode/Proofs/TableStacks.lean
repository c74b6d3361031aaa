import Pseudocode.Proofs.ReaderSound
import Pseudocode.Proofs.Tables

/-!
# Stacks for frames

A reader keeps frames where a parser with tables keeps states and values. `Stands F σ` says which stack stands for
which frames, and `Mirrors r σ` which one stands for a reader. A reader reduces as soon as it can, and the parser only
when the token behind has come, so the stack of the parser may be one that leads to such a stack (`Follows`). `Answers`
says that a token is taken by both or by none, and that what comes of it belongs together again. It holds of the tokens
that begin an operand (`answers_operand`) or a statement (`answers_begin`), and of those behind a statement
(`answers_complete`).
-/

namespace Pseudocode.Tables

open Grammar Reader

/-! ## States -/

/-- The states in which a statement may begin. -/
def opens : List Nat := [0, 2, 48, 52, 53, 55]

/-- The states in which an operand may begin. -/
def wants : List Nat := [0, 6, 11, 15, 16, 17, 23, 24, 25, 26, 27, 44]

/-- The states in which a statement comes, or the end of what statements are read for. -/
def ready : List Nat := [0, 2, 53, 55]

/-- The states in which an operand has to come. -/
def demands : List Nat := [6, 11, 15, 16, 23, 24, 25, 26, 27, 44]

/-- The kinds that begin an operand. -/
def operandKinds : List TokenKind := [.minus, .number, .string, .name, .truth, .leftParen]

/-- The state that is reached with an expression or, as a comparison, with that. -/
def valued (compares : Bool) (s : Nat) : Nat :=
  ((goto (if compares then .comparison else .expression)).lookup s).getD 0

/-- The state that is reached with a statement and perhaps the end of its line. -/
def stated (s : Nat) : Nat :=
  ((goto .stmt).lookup s).getD 0

/-- The state that is reached with a block. -/
def blocked (s : Nat) : Nat :=
  ((goto .block).lookup s).getD 0

/-- The state that is reached with an operator. -/
def signed : TokenKind → Nat
  | .plus => 23
  | .minus => 24
  | .times => 25
  | .divide => 26
  | _ => 27

/-- The rule of an operator. -/
def binary : TokenKind → Rule
  | .plus => .sum
  | .minus => .difference
  | .times => .product
  | .divide => .quotient
  | _ => .comparison

theorem opens_of_ready : ∀ s ∈ ready, s ∈ opens := by
  decide

theorem wants_of_demands : ∀ s ∈ demands, s ∈ wants := by
  decide

theorem goto_expression : ∀ s ∈ wants, (goto .expression).lookup s = some (valued false s) := by
  decide

theorem goto_comparison : ∀ s ∈ wants, (goto .comparison).lookup s = some (valued true s) := by
  decide

theorem goto_stmt : ∀ s ∈ opens, (goto .stmt).lookup s = some (stated s) := by
  decide

theorem goto_statement : ∀ s ∈ opens, (goto .statement).lookup s = some 13 := by
  decide

@[simp]
theorem top_cons (s : Nat) (v : Tree) (σ : Stack) : top ((s, v) :: σ) = s :=
  rfl

/-- A rule takes its values off the stack. -/
theorem fold_append {r : Rule} {s : Nat} (values σ : Stack) (hl : values.length = r.size)
    (hg : (goto r.left).lookup (top σ) = some s) :
    fold r (values ++ σ) = some ((s, r.build (values.reverse.map Prod.snd)) :: σ) := by
  simp only [fold, ← hl, List.drop_left, List.take_left, hg, Option.map_some]

theorem signed_not_opens (k : TokenKind) : signed k ∉ opens := by
  cases k <;> decide

/-! ## What stands for frames -/

/-- The stacks that stand for frames. -/
inductive Stands : List Frame → Stack → Prop
  | empty : Stands [.program []] []
  | program (d : Tree) (done : List Tree) : Stands [.program (d :: done)] [(2, .list (d :: done).reverse)]
  | noBlock {F σ} (i n : Tree) (hc : top σ = 48 ∨ top σ = 52) (h : Stands F σ) :
      Stands (.block [] :: F) ((53, i) :: (50, n) :: σ)
  | block {F σ d done} (i n : Tree) (hd : d.isList = false) (hc : top σ = 48 ∨ top σ = 52) (h : Stands F σ) :
      Stands (.block (d :: done) :: F) ((55, blockTree (d :: done)) :: (53, i) :: (50, n) :: σ)
  | thenPart {F σ} (a b c test : Tree) (ho : top σ ∈ opens) (h : Stands F σ) :
      Stands (.thenPart test :: F) ((48, c) :: (45, b) :: (32, test) :: (15, a) :: σ)
  | elsePart {F σ} (a b c d test body : Tree) (ho : top σ ∈ opens) (h : Stands F σ) :
      Stands (.elsePart test body :: F)
        ((52, d) :: (49, body) :: (48, c) :: (45, b) :: (32, test) :: (15, a) :: σ)
  | tested {F σ} (a : Tree) (ho : top σ ∈ opens) (h : Stands F σ) : Stands (.tested :: F) ((15, a) :: σ)
  | given {F σ} (a : Tree) (ho : top σ ∈ opens) (h : Stands F σ) : Stands (.given :: F) ((16, a) :: σ)
  | printed {F σ} (a : Tree) (ho : top σ ∈ opens) (h : Stands F σ) : Stands (.printed :: F) ((17, a) :: σ)
  | assigned {F σ} (a x b : Tree) (ho : top σ ∈ opens) (h : Stands F σ) :
      Stands (.assigned (textOf x) :: F) ((44, b) :: (31, x) :: (14, a) :: σ)
  | paren {F σ} (a : Tree) (hw : top σ ∈ wants) (h : Stands F σ) : Stands (.paren :: F) ((11, a) :: σ)
  | negated {F σ} (a : Tree) (hw : top σ ∈ wants) (h : Stands F σ) : Stands (.negated :: F) ((6, a) :: σ)
  | left {F σ k l} (op a : Tree) (hl : k.level? = some l) (hw : top σ ∈ wants) (h : Stands F σ) :
      Stands (.left (textOf op) l a :: F) ((signed k, op) :: (valued false (top σ), a) :: σ)

theorem opens_of_conditional {s : Nat} (h : s = 48 ∨ s = 52) : s ∈ opens := by
  rcases h with rfl | rfl <;> decide

/-- Where a statement may begin, it is read for the program, a block or a conditional statement. -/
theorem Stands.of_opens {F : List Frame} {σ : Stack} (h : Stands F σ) (ho : top σ ∈ opens) :
    (∃ done F', F = .program done :: F') ∨ (∃ done F', F = .block done :: F') ∨ top σ = 48 ∨ top σ = 52 := by
  cases h with
  | empty | program => exact .inl ⟨_, _, rfl⟩
  | noBlock | block => exact .inr (.inl ⟨_, _, rfl⟩)
  | thenPart => exact .inr (.inr (.inl rfl))
  | elsePart => exact .inr (.inr (.inr rfl))
  | left => exact absurd ho (signed_not_opens _)
  | _ => simp [opens] at ho

/-- The stacks that stand for readers, once all is reduced that does not depend on the token ahead. -/
inductive Mirrors : Reader → Stack → Prop
  | statement {F σ} (h : Stands F σ) (ht : top σ ∈ ready) : Mirrors ⟨.statement, F⟩ σ
  | operand {F σ} (h : Stands F σ) (ht : top σ ∈ demands) : Mirrors ⟨.operand, F⟩ σ
  | printable {F σ} (a : Tree) (h : Stands F σ) (ho : top σ ∈ opens) : Mirrors ⟨.printable, F⟩ ((17, a) :: σ)
  | operator {F σ e} (h : Stands F σ) (hw : top σ ∈ wants) (he : e.isList = false) :
      Mirrors ⟨.operator e false, F⟩ ((valued false (top σ), e) :: σ)
  | target {F σ} (a : Tree) (h : Stands F σ) (ho : top σ ∈ opens) : Mirrors ⟨.target, F⟩ ((14, a) :: σ)
  | be {F σ} (a x : Tree) (h : Stands F σ) (ho : top σ ∈ opens) :
      Mirrors ⟨.be (textOf x), F⟩ ((31, x) :: (14, a) :: σ)
  | instruction {F σ} (a : Tree) (h : Stands F σ) (ho : top σ ∈ opens) : Mirrors ⟨.instruction, F⟩ ((18, a) :: σ)
  | jumpLabel {F σ} (a b : Tree) (h : Stands F σ) (ho : top σ ∈ opens) :
      Mirrors ⟨.jumpLabel, F⟩ ((36, b) :: (18, a) :: σ)
  | markLabel {F σ} (a : Tree) (h : Stands F σ) (ho : top σ ∈ opens) : Mirrors ⟨.markLabel, F⟩ ((19, a) :: σ)
  | thenWord {F σ} (a b test : Tree) (h : Stands F σ) (ho : top σ ∈ opens) :
      Mirrors ⟨.thenWord test, F⟩ ((45, b) :: (32, test) :: (15, a) :: σ)
  | body {F σ} (h : Stands F σ) (hc : top σ = 48 ∨ top σ = 52) : Mirrors ⟨.body, F⟩ σ
  | indent {F σ} (n : Tree) (h : Stands F σ) (hc : top σ = 48 ∨ top σ = 52) : Mirrors ⟨.indent, F⟩ ((50, n) :: σ)
  | ended {F σ s} (h : Stands F σ) (ho : top σ ∈ opens) (hs : s.isList = false) : Mirrors ⟨.ended s, F⟩ ((13, s) :: σ)
  | bodied {F σ} (a b c test body : Tree) (h : Stands F σ) (ho : top σ ∈ opens) :
      Mirrors ⟨.bodied test body, F⟩ ((49, body) :: (48, c) :: (45, b) :: (32, test) :: (15, a) :: σ)
  | accepted (a d : Tree) (done : List Tree) :
      Mirrors ⟨.accepted, [.program (d :: done)]⟩ [(20, a), (2, .list (d :: done).reverse)]

/-- A stack belongs to a reader. -/
def Follows (r : Reader) (σ : Stack) : Prop :=
  ∃ σ', Leads σ σ' ∧ Mirrors r σ'

/-- What the parser does with a token is what the reader makes of it. -/
def Answers (t : Token) (σ : Stack) : Option Reader → Prop
  | none => Refuses (some t.kind) σ
  | some r => ∃ σ' s, Reduces (some t.kind) σ σ' ∧ action? (top σ') (some t.kind) = some (.shift s) ∧
      Follows r ((s, t.payload.tree) :: σ')

theorem Mirrors.follows {r : Reader} {σ : Stack} (h : Mirrors r σ) : Follows r σ :=
  ⟨σ, .refl, h⟩

theorem Follows.of_leads {r : Reader} {σ σ' : Stack} (h : Leads σ σ') (hf : Follows r σ') : Follows r σ := by
  obtain ⟨τ, ht, hm⟩ := hf
  exact ⟨τ, h.trans ht, hm⟩

section

variable {t : Token} {F : List Frame} {σ : Stack}

/-- Answers do not change with reductions. -/
theorem Answers.of_leadsAt {σ' : Stack} {o : Option Reader} (h : LeadsAt (some t.kind) σ σ') (ha : Answers t σ' o) :
    Answers t σ o := by
  cases o with
  | none => exact Refuses.of_leadsAt h ha
  | some r =>
    obtain ⟨τ, s, hr, hs, hf⟩ := ha
    rcases h with h | ⟨-, hn⟩
    · exact ⟨τ, s, h.trans hr, hs, hf⟩
    · rw [hr.eq_of_none hn, hn] at hs
      cases hs

theorem answers_shift {s : Nat} {r : Reader} (hs : action? (top σ) (some t.kind) = some (.shift s))
    (hf : Follows r ((s, t.payload.tree) :: σ)) : Answers t σ (some r) :=
  ⟨σ, s, .refl, hs, hf⟩

theorem answers_refuse (h : action? (top σ) (some t.kind) = none) : Answers t σ none :=
  refuses_of_none h

/-! ## Operands -/

theorem passes_operand : ∀ p ∈ [(7, Rule.number), (8, .string), (9, .name), (10, .truth)], ∀ w ∈ wants, ∀ k,
    Passes p.1 p.2 (valued false w) k := by
  decide

/-- A token that is an operand is reduced to an expression. -/
theorem leads_operand {s : Nat} {r : Rule} (hp : (s, r) ∈ [(7, Rule.number), (8, .string), (9, .name), (10, .truth)])
    (hw : top σ ∈ wants) (v : Tree) : Leads ((s, v) :: σ) ((valued false (top σ), r.build [v]) :: σ) := by
  have hr : r.size = 1 ∧ r.left = .expression := by
    have : ∀ p ∈ [(7, Rule.number), (8, .string), (9, .name), (10, .truth)], p.2.size = 1 ∧ p.2.left = .expression := by
      decide
    exact this _ hp
  have hf : fold r ((s, v) :: σ) = some ((valued false (top σ), r.build [v]) :: σ) :=
    fold_append [(s, v)] _ hr.1.symm (by rw [hr.2]; exact goto_expression _ hw)
  exact fun k => leadsAt_fold hf (passes_operand _ hp _ hw k)

theorem shift_operand : ∀ s ∈ wants,
    action? s (some .minus) = some (.shift 6) ∧ action? s (some .number) = some (.shift 7) ∧
    action? s (some .string) = some (.shift 8) ∧ action? s (some .name) = some (.shift 9) ∧
    action? s (some .truth) = some (.shift 10) ∧ action? s (some .leftParen) = some (.shift 11) := by
  decide

theorem answers_operand (h : Stands F σ) (hw : top σ ∈ wants) (hn : t.kind ∉ operandKinds → Refuses (some t.kind) σ) :
    Answers t σ (operand t F) := by
  obtain ⟨hm, hnum, hstr, hname, htruth, hp⟩ := shift_operand _ hw
  obtain ⟨kind, payload, line, pos⟩ := t
  cases kind
  case minus => exact answers_shift hm (Mirrors.operand (.negated _ hw h) (by simp [demands])).follows
  case leftParen => exact answers_shift hp (Mirrors.operand (.paren _ hw h) (by simp [demands])).follows
  case number =>
    refine answers_shift hnum
      (.of_leads (leads_operand (r := .number) (by simp) hw _) (Mirrors.operator h hw ?_).follows)
    cases payload <;> rfl
  case string =>
    refine answers_shift hstr
      (.of_leads (leads_operand (r := .string) (by simp) hw _) (Mirrors.operator h hw ?_).follows)
    cases payload <;> rfl
  case name =>
    have he : Rule.name.build [payload.tree] = .name payload.string := congrArg Tree.name (textOf_tree payload)
    refine answers_shift hname (.of_leads (leads_operand (r := .name) (by simp) hw _) ?_)
    rw [he]
    exact (Mirrors.operator h hw rfl).follows
  case truth =>
    have he : Rule.truth.build [payload.tree] = .bool (payload.string == "True") :=
      congrArg (fun s => Tree.bool (s == "True")) (textOf_tree payload)
    refine answers_shift htruth (.of_leads (leads_operand (r := .truth) (by simp) hw _) ?_)
    rw [he]
    exact (Mirrors.operator h hw rfl).follows
  all_goals exact hn (by simp [operandKinds])

/-! ## Statements -/

theorem shift_opener : ∀ s ∈ opens, action? s (some .letWord) = some (.shift 14) ∧
    action? s (some .ifWord) = some (.shift 15) ∧ action? s (some .returnWord) = some (.shift 16) ∧
    action? s (some .printWord) = some (.shift 17) ∧ action? s (some .gotoWord) = some (.shift 18) ∧
    action? s (some .marker) = some (.shift 19) := by
  decide

theorem answers_begin (h : Stands F σ) (ho : top σ ∈ opens) (hn : t.kind ∉ openers → Refuses (some t.kind) σ) :
    Answers t σ (begin t F) := by
  obtain ⟨hlet, hif, hret, hprint, hgoto, hmark⟩ := shift_opener _ ho
  obtain ⟨kind, payload, line, pos⟩ := t
  cases kind
  case letWord => exact answers_shift hlet (Mirrors.target _ h ho).follows
  case ifWord => exact answers_shift hif (Mirrors.operand (.tested _ ho h) (by simp [demands])).follows
  case returnWord => exact answers_shift hret (Mirrors.operand (.given _ ho h) (by simp [demands])).follows
  case printWord => exact answers_shift hprint (Mirrors.printable _ h ho).follows
  case gotoWord => exact answers_shift hgoto (Mirrors.instruction _ h ho).follows
  case marker => exact answers_shift hmark (Mirrors.markLabel _ h ho).follows
  all_goals exact hn (by simp [openers])

/-- What is reduced whatever is ahead, and where that leads. -/
def steady : List (Nat × Rule × Nat) :=
  [(51, .blockInline, 49), (51, .blockInline, 54), (57, .blockIndented, 49), (57, .blockIndented, 54), (54, .choose, 13),
    (56, .stmtsOne, 55), (58, .stmtsMore, 55), (5, .command, 3), (5, .command, 22), (3, .programFirst, 2),
    (22, .programCommand, 2), (21, .programNewline, 2), (46, .jump, 13), (37, .mark, 13)]

theorem passes_steady : ∀ p ∈ steady, ∀ k, Passes p.1 p.2.1 p.2.2 k := by
  decide

theorem leads_steady {s' : Nat} (s : Nat) (r : Rule) (v : Tree) (values σ : Stack) (hp : (s, r, s') ∈ steady)
    (hl : values.length + 1 = r.size) (hg : (goto r.left).lookup (top σ) = some s') :
    Leads ((s, v) :: values ++ σ) ((s', r.build (((s, v) :: values).reverse.map Prod.snd)) :: σ) :=
  fun k => leadsAt_fold (fold_append ((s, v) :: values) σ hl hg) (passes_steady _ hp k)

theorem leads_choose (ho : top σ ∈ opens) (a b c d test body other : Tree) :
    Leads ((54, other) :: (52, d) :: (49, body) :: (48, c) :: (45, b) :: (32, test) :: (15, a) :: σ)
      ((13, .choose test body other) :: σ) :=
  leads_steady 54 .choose other [(52, d), (49, body), (48, c), (45, b), (32, test), (15, a)] σ (by decide) rfl
    (goto_statement _ ho)

/-- A block, on its line or indented, goes to the conditional statement that it was read for. -/
theorem follows_block (h : Stands F σ) (hc : top σ = 48 ∨ top σ = 52) (body : Tree) :
    ∃ r, place body F = some r ∧ Follows r ((blocked (top σ), body) :: σ) := by
  cases h with
  | thenPart a b c test ho h => exact ⟨_, rfl, (Mirrors.bodied a b c test body h ho).follows⟩
  | elsePart a b c d test first ho h =>
    exact ⟨_, rfl, .of_leads (leads_choose ho a b c d test first body) (Mirrors.ended h ho rfl).follows⟩
  | left => exact absurd (opens_of_conditional hc) (signed_not_opens _)
  | empty => rcases hc with hc | hc <;> cases hc
  | _ => simp at hc

theorem goto_block {s : Nat} (h : s = 48 ∨ s = 52) : (goto .block).lookup s = some (blocked s) := by
  rcases h with rfl | rfl <;> rfl

/-- A statement on the line of a `then` or an `else` is a block. -/
theorem leads_blockInline (hc : top σ = 48 ∨ top σ = 52) (s : Tree) :
    Leads ((stated (top σ), s) :: σ) ((blocked (top σ), s) :: σ) := by
  have hs : stated (top σ) = 51 ∧ (51, Rule.blockInline, blocked (top σ)) ∈ steady := by
    rcases hc with hc | hc <;> rw [hc] <;> decide
  rw [hs.1]
  exact leads_steady 51 .blockInline s [] σ hs.2 rfl (goto_block hc)

/-- A statement goes to the block that it is read for. -/
theorem leads_block {done : List Tree} {s : Tree} (h : Stands (.block done :: F) σ) (hs : s.isList = false) :
    ∃ σ', Leads ((stated (top σ), s) :: σ) σ' ∧ Stands (.block (s :: done) :: F) σ' ∧ top σ' ∈ ready := by
  cases h with
  | @noBlock _ σ i n hc h =>
    have hl := leads_steady 56 .stmtsOne s [] ((53, i) :: (50, n) :: σ) (by decide) rfl rfl
    exact ⟨_, hl, .block i n hs hc h, by simp [ready]⟩
  | @block _ σ d done i n hd hc h =>
    have hl := leads_steady 58 .stmtsMore s [(55, blockTree (d :: done))] ((53, i) :: (50, n) :: σ) (by decide) rfl rfl
    refine ⟨_, hl, ?_, by simp [ready]⟩
    have hb : Rule.stmtsMore.build [blockTree (d :: done), s] = blockTree (s :: d :: done) :=
      (blockTree_cons s d done hd).symm
    simp only [List.reverse_cons, List.reverse_nil, List.nil_append, List.singleton_append, List.map_cons, List.map_nil,
      hb]
    exact .block i n hs hc h

/-- A statement goes to the program. -/
theorem leads_program {done : List Tree} {s : Tree} (h : Stands (.program done :: F) σ) (hs : s.isList = false) :
    ∃ σ', Leads ((stated (top σ), s) :: σ) σ' ∧ Stands (.program (s :: done) :: F) σ' ∧ top σ' ∈ ready := by
  cases h with
  | empty =>
    have hl := leads_steady 5 .command s [] [] (by decide) rfl rfl
    have hl' := leads_steady 3 .programFirst s [] [] (by decide) rfl rfl
    have hb : Rule.programFirst.build [s] = .list [s] := listOf_of_isList hs
    refine ⟨_, hl.trans hl', ?_, by simp [ready]⟩
    simp only [List.reverse_cons, List.reverse_nil, List.nil_append, List.map_cons, List.map_nil, hb]
    exact .program s []
  | program d done =>
    have hl := leads_steady 5 .command s [] [(2, .list (d :: done).reverse)] (by decide) rfl rfl
    have hl' := leads_steady 22 .programCommand s [(2, .list (d :: done).reverse)] [] (by decide) rfl rfl
    have hb : Rule.programCommand.build [.list (d :: done).reverse, s] = .list (s :: d :: done).reverse := by
      rw [List.reverse_cons (a := s)]
      rfl
    refine ⟨_, hl.trans hl', ?_, by simp [ready]⟩
    exact hb ▸ Stands.program s (d :: done)

theorem passes_stmtNewline : ∀ s ∈ opens, ∀ k, Passes 30 .stmtNewline (stated s) k := by
  decide

theorem passes_stmtBare : ∀ s ∈ opens, ∀ k, k ≠ some .newline → Passes 13 .stmtBare (stated s) k := by
  decide

/-- A statement with the end of its line goes to what it was read for. -/
theorem follows_place {s : Tree} (h : Stands F σ) (ho : top σ ∈ opens) (hs : s.isList = false) (n : Tree) :
    ∃ r, place s F = some r ∧ Follows r ((30, n) :: (13, s) :: σ) := by
  have hf : fold .stmtNewline ((30, n) :: (13, s) :: σ) = some ((stated (top σ), s) :: σ) :=
    fold_append [(30, n), (13, s)] _ rfl (goto_stmt _ ho)
  have hl : Leads ((30, n) :: (13, s) :: σ) ((stated (top σ), s) :: σ) := fun k =>
    leadsAt_fold hf (passes_stmtNewline _ ho k)
  rcases h.of_opens ho with ⟨done, F, rfl⟩ | ⟨done, F, rfl⟩ | hc
  · obtain ⟨σ', hl', h', ht⟩ := leads_program h hs
    exact ⟨_, rfl, .of_leads (hl.trans hl') (Mirrors.statement h' ht).follows⟩
  · obtain ⟨σ', hl', h', ht⟩ := leads_block h hs
    exact ⟨_, rfl, .of_leads (hl.trans hl') (Mirrors.statement h' ht).follows⟩
  · obtain ⟨r, hr, hf⟩ := follows_block h hc s
    exact ⟨r, hr, .of_leads (hl.trans (leads_blockInline hc s)) hf⟩

/-! ## Behind a statement -/

theorem refuse_opening : ∀ k, k ∉ openers → (k ∉ operandKinds → action? 0 (some k) = none) ∧
    (k ≠ .newline → k ≠ .endMarker → action? 2 (some k) = none) ∧ action? 53 (some k) = none ∧
    (k ≠ .dedent → action? 55 (some k) = none) ∧
    (k ≠ .newline → action? 48 (some k) = none ∧ action? 52 (some k) = none) := by
  decide

theorem begin_eq_none (h : t.kind ∉ openers) (F : List Frame) : begin t F = none := by
  unfold begin
  split <;> first | rfl | simp_all [openers]

theorem begin_isSome (h : t.kind ∈ openers) (F : List Frame) : ∃ r, begin t F = some r := by
  unfold begin
  split <;> first | exact ⟨_, rfl⟩ | simp_all [openers]

theorem answers_atStatement (h : Stands F σ) (ht : top σ ∈ ready) : Answers t σ (atStatement t F) := by
  have ho : top σ ∈ opens := opens_of_ready _ ht
  cases h with
  | empty =>
    by_cases hk : t.kind ∈ openers
    · obtain ⟨r, hr⟩ := begin_isSome hk [.program []]
      have hb : Answers t [] (begin t [.program []]) := answers_begin .empty ho fun hn => absurd hk hn
      rw [hr] at hb
      rw [atStatement, hr]
      exact hb
    · rw [atStatement, begin_eq_none hk]
      exact answers_operand .empty (by decide) fun hn => refuses_of_none ((refuse_opening _ hk).1 hn)
  | program d done =>
    rw [atStatement]
    split
    case h_1 hk =>
      have hl := leads_steady 21 .programNewline t.payload.tree [(2, .list (d :: done).reverse)] [] (by decide) rfl rfl
      have hb : Rule.programNewline.build [.list (d :: done).reverse, t.payload.tree] =
          .list (t.payload.tree :: d :: done).reverse := by
        rw [List.reverse_cons (a := t.payload.tree)]
        rfl
      have hs : Stands [.program (t.payload.tree :: d :: done)]
          [(2, Rule.programNewline.build [.list (d :: done).reverse, t.payload.tree])] := hb ▸ .program _ _
      exact answers_shift (by rw [hk]; rfl) (.of_leads hl (Mirrors.statement hs (by simp [ready])).follows)
    case h_2 hk => exact answers_shift (by rw [hk]; rfl) (Mirrors.accepted _ d done).follows
    case h_3 hn he =>
      exact answers_begin (.program d done) ho fun hk => refuses_of_none ((refuse_opening _ hk).2.1 hn he)
  | noBlock i n hc h =>
    exact answers_begin (.noBlock i n hc h) ho fun hk => refuses_of_none (refuse_opening _ hk).2.2.1
  | @block F σ d done i n hd hc h =>
    rw [atStatement]
    split
    case isTrue hk =>
      obtain ⟨r, hr, hf⟩ := follows_block h hc (blockTree (d :: done))
      have hg : (57, Rule.blockIndented, blocked (top σ)) ∈ steady := by
        rcases hc with hc | hc <;> rw [hc] <;> decide
      have hl := leads_steady 57 .blockIndented t.payload.tree [(55, blockTree (d :: done)), (53, i), (50, n)] σ hg rfl
        (goto_block hc)
      rw [hr]
      exact answers_shift (by rw [hk]; rfl) (.of_leads hl hf)
    case isFalse hk =>
      exact answers_begin (.block i n hd hc h) ho fun hn => refuses_of_none ((refuse_opening _ hn).2.2.2.1 hk)
  | left => exact absurd ho (signed_not_opens _)
  | _ => simp [ready] at ht

theorem passes_when : ∀ k, k ≠ some .elseWord → Passes 49 .when 13 k := by
  decide

/-- Without an `else` behind it, a conditional statement is complete. -/
theorem leadsAt_when (ho : top σ ∈ opens) (ht : t.kind ≠ .elseWord) (a b c test body : Tree) :
    LeadsAt (some t.kind) ((49, body) :: (48, c) :: (45, b) :: (32, test) :: (15, a) :: σ)
      ((13, .when test body) :: σ) :=
  leadsAt_fold
    (fold_append (r := .when) [(49, body), (48, c), (45, b), (32, test), (15, a)] σ rfl (goto_statement _ ho))
    (passes_when _ (by simp [ht]))

theorem answers_unwind {s : Tree} (h : Stands F σ) (ho : top σ ∈ opens) (hs : s.isList = false)
    (ht : t.kind ≠ .newline) : Answers t ((13, s) :: σ) (unwind t s F) := by
  have hl {σ : Stack} {s : Tree} (ho : top σ ∈ opens) :
      LeadsAt (some t.kind) ((13, s) :: σ) ((stated (top σ), s) :: σ) :=
    leadsAt_fold (fold_append [(13, s)] _ rfl (goto_stmt _ ho)) (passes_stmtBare _ ho _ (by simp [ht]))
  induction h generalizing s with
  | empty =>
    obtain ⟨σ', hl', h', ht'⟩ := leads_program .empty hs
    exact .of_leadsAt ((hl ho).trans (hl' _)) (answers_atStatement h' ht')
  | program d done =>
    obtain ⟨σ', hl', h', ht'⟩ := leads_program (.program d done) hs
    exact .of_leadsAt ((hl ho).trans (hl' _)) (answers_atStatement h' ht')
  | noBlock i n hc h =>
    obtain ⟨σ', hl', h', ht'⟩ := leads_block (.noBlock i n hc h) hs
    exact .of_leadsAt ((hl ho).trans (hl' _)) (answers_atStatement h' ht')
  | block i n hd hc h =>
    obtain ⟨σ', hl', h', ht'⟩ := leads_block (.block i n hd hc h) hs
    exact .of_leadsAt ((hl ho).trans (hl' _)) (answers_atStatement h' ht')
  | thenPart a b c test ho' h ih =>
    refine .of_leadsAt ((hl ho).trans (leads_blockInline (.inl rfl) s _)) ?_
    rw [unwind]
    split
    case isTrue hk =>
      exact answers_shift (by rw [hk]; rfl) (Mirrors.body (.elsePart a b c _ test s ho' h) (.inr rfl)).follows
    case isFalse hk => exact .of_leadsAt (leadsAt_when ho' hk a b c test s) (ih ho' rfl)
  | elsePart a b c d test body ho' h ih =>
    have hc := leads_choose ho' a b c d test body s
    exact .of_leadsAt (((hl ho).trans (leads_blockInline (.inr rfl) s _)).trans (hc _)) (ih ho' rfl)
  | left => exact absurd ho (signed_not_opens _)
  | _ => simp [opens] at ho

theorem answers_complete {s : Tree} (h : Stands F σ) (ho : top σ ∈ opens) (hs : s.isList = false) :
    Answers t ((13, s) :: σ) (complete t s F) := by
  rw [complete]
  split
  case isTrue hk =>
    obtain ⟨r, hr, hf⟩ := follows_place h ho hs t.payload.tree
    rw [hr]
    exact answers_shift (by rw [hk]; rfl) hf
  case isFalse hk => exact answers_unwind h ho hs hk

end

end Pseudocode.Tables
