import Pseudocode.Proofs.TableStacks

/-!
# The reader does what the tables say

Behind an operand the parser completes the operators in wait that bind closer than the token ahead, as the reader does
(`leads_settle`). So, whatever token comes, the reader takes it exactly if the parser shifts it, and their new states
belong together again (`Mirrors.feed`). The parser comes to a halt on all tokens, with what the reader makes of them
(`run_programOf`).
-/

namespace Pseudocode.Tables

open Grammar Reader

section

variable {t : Token} {F : List Frame} {σ : Stack}

/-! ## Behind an operand -/

/-- A comparison is an expression, except right behind an `if`. -/
theorem passes_compared : ∀ s ∈ wants, s ≠ 15 → ∀ k, Passes (valued true s) .compared (valued false s) k := by
  decide

theorem leads_compared (hw : top σ ∈ wants) (h15 : top σ ≠ 15) (compares : Bool) (e : Tree) :
    Leads ((valued compares (top σ), e) :: σ) ((valued false (top σ), e) :: σ) := by
  cases compares with
  | false => exact .refl
  | true =>
    have hf : fold .compared ((valued true (top σ), e) :: σ) = some ((valued false (top σ), e) :: σ) :=
      fold_append [(valued true (top σ), e)] _ rfl (goto_expression _ hw)
    exact fun k => leadsAt_fold hf (passes_compared _ hw h15 k)

/-- The frames of operators that wait, though one of some level could come. -/
def Loose (level : Nat) : List Frame → Prop
  | .negated :: _ => 2 < level
  | .left _ l _ :: _ => l < level
  | _ => True

theorem passes_negation : ∀ k : TokenKind, k.level?.getD 0 ≤ 2 → ∀ w ∈ wants,
    Passes 28 .negation (valued false w) (some k) := by
  decide

theorem passes_binary : ∀ k' : TokenKind, ∀ l ∈ k'.level?, ∀ k : TokenKind, k.level?.getD 0 ≤ l → ∀ w ∈ wants,
    Passes (valued false (signed k')) (binary k') (valued (l == 1) w) (some k) := by
  decide

theorem fold_negation (hw : top σ ∈ wants) (e a : Tree) :
    fold .negation ((28, e) :: (6, a) :: σ) = some ((valued false (top σ), negate e) :: σ) :=
  fold_append [(28, e), (6, a)] _ rfl (goto_expression _ hw)

theorem fold_binary {k : TokenKind} {l : Nat} (hl : k.level? = some l) (hw : top σ ∈ wants) (e op a : Tree) :
    fold (binary k) ((valued false (signed k), e) :: (signed k, op) :: (valued false (top σ), a) :: σ) =
      some ((valued (l == 1) (top σ), combine (textOf op) l a e) :: σ) := by
  cases k <;> cases hl
  case comparison =>
    exact fold_append (r := .comparison) [(42, e), (27, op), (valued false (top σ), a)] _ rfl
      (goto_comparison _ hw)
  case plus =>
    exact fold_append (r := .sum) [(38, e), (23, op), (valued false (top σ), a)] _ rfl (goto_expression _ hw)
  case minus =>
    exact fold_append (r := .difference) [(39, e), (24, op), (valued false (top σ), a)] _ rfl
      (goto_expression _ hw)
  case times =>
    exact fold_append (r := .product) [(40, e), (25, op), (valued false (top σ), a)] _ rfl
      (goto_expression _ hw)
  case divide =>
    exact fold_append (r := .quotient) [(41, e), (26, op), (valued false (top σ), a)] _ rfl
      (goto_expression _ hw)

theorem isList_combine (op : String) (l : Nat) (a b : Tree) : (combine op l a b).isList = false := by
  unfold combine
  split <;> rfl

theorem signed_ne (k : TokenKind) : signed k ≠ 15 := by
  cases k <;> decide

theorem signed_operand (k : TokenKind) : signed k ∈ demands := by
  cases k <;> decide

/-- The operators that bind closer than a token are completed before it. -/
theorem leads_settle (k : TokenKind) {e : Tree} {c : Bool} (h : Stands F σ) (hw : top σ ∈ wants)
    (he : e.isList = false) :
    ∃ σ', Stands (settle (k.level?.getD 0) e c F).2.2 σ' ∧ top σ' ∈ wants ∧
      (settle (k.level?.getD 0) e c F).1.isList = false ∧
      Loose (k.level?.getD 0) (settle (k.level?.getD 0) e c F).2.2 ∧
      LeadsAt (some k) ((valued c (top σ), e) :: σ)
        ((valued (settle (k.level?.getD 0) e c F).2.1 (top σ'), (settle (k.level?.getD 0) e c F).1) :: σ') := by
  induction h generalizing e c with
  | @negated F σ a hw' h ih =>
    rw [settle]
    split
    case isTrue hl =>
      obtain ⟨σ', hs, ht, hi, hlo, hle⟩ := ih (e := negate e) (c := false) hw' rfl
      refine ⟨σ', hs, ht, hi, hlo, .trans ?_ hle⟩
      have hc := leads_compared (σ := (6, a) :: σ) hw (by simp) c e (some k)
      exact hc.trans (leadsAt_fold (fold_negation hw' e a) (passes_negation k hl _ hw'))
    case isFalse hl => exact ⟨_, .negated a hw' h, hw, he, Nat.lt_of_not_le hl, .refl⟩
  | @left F σ k' l op a hk hw' h ih =>
    rw [settle]
    split
    case isTrue hl =>
      obtain ⟨σ', hs, ht, hi, hlo, hle⟩ := ih (e := combine (textOf op) l a e) (c := l == 1) hw' (isList_combine ..)
      refine ⟨σ', hs, ht, hi, hlo, .trans ?_ hle⟩
      have hc := leads_compared (σ := (signed k', op) :: (valued false (top σ), a) :: σ) hw (signed_ne k') c e (some k)
      exact hc.trans (leadsAt_fold (fold_binary hk hw' e op a) (passes_binary k' l hk k hl _ hw'))
    case isFalse hl => exact ⟨_, .left op a hk hw' h, hw, he, Nat.lt_of_not_le hl, .refl⟩
  | empty => exact ⟨_, .empty, hw, he, trivial, .refl⟩
  | tested a ho h => exact ⟨_, .tested a ho h, hw, he, trivial, .refl⟩
  | given a ho h => exact ⟨_, .given a ho h, hw, he, trivial, .refl⟩
  | printed a ho h => exact ⟨_, .printed a ho h, hw, he, trivial, .refl⟩
  | assigned a x b ho h => exact ⟨_, .assigned a x b ho h, hw, he, trivial, .refl⟩
  | paren a hw' h => exact ⟨_, .paren a hw' h, hw, he, trivial, .refl⟩
  | _ => simp [wants] at hw

theorem shift_sign : ∀ k : TokenKind, ∀ level ∈ k.level?,
    (∀ s ∈ [0, 11, 15, 16, 17, 44], action? (valued false s) (some k) = some (.shift (signed k))) ∧
      (2 < level → action? (valued false 6) (some k) = some (.shift (signed k))) ∧
      ∀ k' : TokenKind, ∀ l ∈ k'.level?, l < level →
        action? (valued false (signed k')) (some k) = some (.shift (signed k)) := by
  decide

/-- Where nothing closer waits, an operator is shifted. -/
theorem shift_operator {k : TokenKind} {level : Nat} (hk : k.level? = some level) (h : Stands F σ) (hw : top σ ∈ wants)
    (hl : Loose level F) : action? (valued false (top σ)) (some k) = some (.shift (signed k)) := by
  obtain ⟨hbase, hneg, hleft⟩ := shift_sign k level hk
  cases h with
  | negated => exact hneg hl
  | left op a hk' => exact hleft _ _ hk' hl
  | empty | tested | given | printed | assigned | paren => exact hbase _ (by simp [top])
  | _ => simp [wants] at hw

theorem passes_sign : ∀ k : TokenKind, k.level? ≠ none → ∀ s ∈ wants,
    Passes (valued true s) .compared (valued false s) (some k) := by
  decide

/-- The rules of what ends with an expression, by the states before it, and where they lead. -/
def endings : List (Nat × Rule × Nat) :=
  [(44, .assign, 13), (16, .give, 13), (17, .print, 13), (0, .programExpression, 2)]

/-- What is refused or reduced where an expression ends. -/
theorem passes_ending : ∀ k : TokenKind, k.level? = none →
    (∀ p ∈ endings, Passes (valued false p.1) p.2.1 p.2.2 (some k)) ∧
      (k ≠ .rightParen → action? 29 (some k) = none) ∧ (k ≠ .comma → action? 32 (some k) = none) ∧
      action? 33 (some k) = none := by
  decide

theorem leadsAt_ending {w s' : Nat} {r : Rule} (hk : t.kind.level? = none) (hp : (w, r, s') ∈ endings) (c : Bool)
    (e : Tree) (values : Stack) (hw : top (values ++ σ) = w) (hl : values.length + 1 = r.size)
    (hg : (goto r.left).lookup (top σ) = some s') :
    LeadsAt (some t.kind) ((valued c w, e) :: values ++ σ)
      ((s', r.build ((values.reverse.map Prod.snd) ++ [e])) :: σ) := by
  subst hw
  have hs : ∀ p ∈ endings, p.1 ∈ wants ∧ p.1 ≠ 15 := by
    decide
  obtain ⟨hw, h15⟩ := hs _ hp
  have hf := fold_append ((valued false (top (values ++ σ)), e) :: values) σ hl hg
  rw [List.reverse_cons, List.map_append] at hf
  exact (leads_compared hw h15 c e _).trans (leadsAt_fold hf ((passes_ending _ hk).1 _ hp))

theorem passes_group : ∀ w ∈ wants, ∀ k, Passes 43 .group (valued false w) k := by
  decide

theorem answers_conclude {e : Tree} {c : Bool} (hk : t.kind.level? = none) (h : Stands F σ) (hw : top σ ∈ wants)
    (he : e.isList = false) (hl : Loose 0 F) : Answers t ((valued c (top σ), e) :: σ) (conclude t e c F) := by
  obtain ⟨-, hparen, hcomma, htest⟩ := passes_ending _ hk
  cases h with
  | @paren F σ a hw' h =>
    refine .of_leadsAt (leads_compared (σ := (11, a) :: σ) hw (by simp) c e _) ?_
    rw [conclude]
    split
    case isTrue hr =>
      have hf : fold .group ((43, t.payload.tree) :: (29, e) :: (11, a) :: σ) = some ((valued false (top σ), e) :: σ) :=
        fold_append [(43, t.payload.tree), (29, e), (11, a)] _ rfl (goto_expression _ hw')
      exact answers_shift (by rw [hr]; rfl)
        (.of_leads (fun k => leadsAt_fold hf (passes_group _ hw' k)) (Mirrors.operator h hw' he).follows)
    case isFalse hr => exact answers_refuse (hparen hr)
  | @tested F σ a ho h =>
    rw [conclude]
    split
    case isTrue hr =>
      obtain ⟨hr, rfl⟩ := hr
      exact answers_shift (by rw [hr]; rfl) (Mirrors.thenWord a _ e h ho).follows
    case isFalse hr =>
      cases c with
      | false => exact answers_refuse htest
      | true => exact answers_refuse (hcomma fun hc => hr ⟨hc, rfl⟩)
  | assigned a x b ho h =>
    have hl := leadsAt_ending (w := 44) (r := .assign) hk (by decide) c e [(44, b), (31, x), (14, a)] rfl rfl
      (goto_statement _ ho)
    exact .of_leadsAt hl (answers_complete h ho rfl)
  | given a ho h =>
    have hl := leadsAt_ending (w := 16) (r := .give) hk (by decide) c e [(16, a)] rfl rfl (goto_statement _ ho)
    exact .of_leadsAt hl (answers_complete h ho rfl)
  | printed a ho h =>
    have hl := leadsAt_ending (w := 17) (r := .print) hk (by decide) c e [(17, a)] rfl rfl (goto_statement _ ho)
    exact .of_leadsAt hl (answers_complete h ho rfl)
  | empty =>
    have hb : Rule.programExpression.build [e] = .list [e] := listOf_of_isList he
    have hl : LeadsAt (some t.kind) [(valued c 0, e)] [(2, Rule.programExpression.build [e])] :=
      leadsAt_ending (σ := []) hk (by decide) c e [] rfl rfl rfl
    rw [hb] at hl
    exact .of_leadsAt hl (answers_atStatement (.program e []) (by simp [ready]))
  | negated => cases hl
  | left => cases hl
  | _ => simp [wants] at hw

theorem answers_operator {e : Tree} (h : Stands F σ) (hw : top σ ∈ wants) (he : e.isList = false) :
    Answers t ((valued false (top σ), e) :: σ) (operator t e false F) := by
  obtain ⟨σ', hs, hw', hi, hlo, hle⟩ := leads_settle t.kind (c := false) h hw he
  refine .of_leadsAt hle ?_
  rw [operator]
  cases hk : t.kind.level? with
  | none =>
    rw [hk] at hs hi hlo
    exact answers_conclude hk hs hw' hi hlo
  | some level =>
    rw [hk, Option.getD_some] at hs hi hlo
    rw [Option.getD_some]
    dsimp only
    -- The operators that bind more tightly are folded on both sides, and this one is put on top.
    generalize settle level e false F = settled at hs hi hlo ⊢
    obtain ⟨e', c, F'⟩ := settled
    have hc : LeadsAt (some t.kind) ((valued c (top σ'), e') :: σ') ((valued false (top σ'), e') :: σ') := by
      cases c with
      | false => exact .refl
      | true =>
        have hf : fold .compared ((valued true (top σ'), e') :: σ') = some ((valued false (top σ'), e') :: σ') :=
          fold_append [(valued true (top σ'), e')] _ rfl (goto_expression _ hw')
        exact leadsAt_fold hf (passes_sign _ (by simp [hk]) _ hw')
    refine .of_leadsAt hc (answers_shift (shift_operator hk hs hw' hlo) ?_)
    have hst : Stands (.left t.payload.string level e' :: F') ((signed t.kind, t.payload.tree) ::
        (valued false (top σ'), e') :: σ') := by
      rw [← textOf_tree]
      exact .left t.payload.tree e' hk hw' hs
    exact (Mirrors.operand hst (signed_operand t.kind)).follows

/-! ## Tokens one after the other -/

theorem refuse_operand : ∀ k, k ∉ operandKinds → ∀ s ∈ demands, action? s (some k) = none := by
  decide

theorem answers_expect {kind : TokenKind} {s : Nat} {mode : ReaderMode}
    (hs : action? (top σ) (some kind) = some (.shift s)) (hn : ∀ k, k ≠ kind → action? (top σ) (some k) = none)
    (hf : Follows ⟨mode, F⟩ ((s, t.payload.tree) :: σ)) : Answers t σ (expect t kind mode F) := by
  rw [expect]
  split
  case isTrue hk => exact answers_shift (by rw [hk]; exact hs) hf
  case isFalse hk => exact answers_refuse (hn _ hk)

end

theorem passes_printEmpty : ∀ k, k ∉ operandKinds → Passes 17 .printEmpty 13 (some k) := by
  decide

theorem operand_eq_none {t : Token} (h : t.kind ∉ operandKinds) (F : List Frame) : Reader.operand t F = none := by
  unfold Reader.operand
  split <;> first | rfl | simp_all [operandKinds]

theorem operand_isSome {t : Token} (h : t.kind ∈ operandKinds) (F : List Frame) : ∃ r, Reader.operand t F = some r := by
  unfold Reader.operand
  split <;> first | exact ⟨_, rfl⟩ | simp_all [operandKinds]

/-- The only kind of token that some states shift. -/
theorem refuse_other : ∀ p ∈ [(14, TokenKind.name), (31, .beWord), (18, .instructionWord), (36, .number), (19, .number),
    (45, .thenWord), (50, .indent)], ∀ k, k ≠ p.2 → action? p.1 (some k) = none := by
  decide

/-- Whatever token comes, the reader takes it exactly if the parser does, and they belong together again. -/
theorem Mirrors.feed {r : Reader} {σ : Stack} (h : Mirrors r σ) (t : Token) : Answers t σ (r.feed t) := by
  cases h with
  | statement h ht => exact answers_atStatement h ht
  | operand h ht =>
    exact answers_operand h (wants_of_demands _ ht) fun hk => refuses_of_none (refuse_operand _ hk _ ht)
  | @printable F σ a h ho =>
    -- An operand goes on with the statement; anything else ends it, and is fed to what comes behind it.
    have hf : fold .printEmpty ((17, a) :: σ) = some ((13, .print .none) :: σ) :=
      fold_append [(17, a)] _ rfl (goto_statement _ ho)
    rw [Reader.feed]
    dsimp only
    by_cases hk : t.kind ∈ operandKinds
    · obtain ⟨r, hr⟩ := operand_isSome hk (.printed :: F)
      have hp : Answers t ((17, a) :: σ) (Reader.operand t (.printed :: F)) :=
        answers_operand (.printed a ho h) (by simp [wants]) fun hn => absurd hk hn
      rw [hr] at hp ⊢
      exact hp
    · rw [operand_eq_none hk]
      exact .of_leadsAt (leadsAt_fold hf (passes_printEmpty _ hk)) (answers_complete h ho rfl)
  | operator h hw he => exact answers_operator h hw he
  | target a h ho =>
    refine answers_expect rfl (refuse_other (14, .name) (by simp)) ?_
    rw [← textOf_tree]
    exact (Mirrors.be a _ h ho).follows
  | be a x h ho =>
    exact answers_expect rfl (refuse_other (31, .beWord) (by simp))
      (Mirrors.operand (.assigned a x _ ho h) (by simp [demands])).follows
  | instruction a h ho =>
    exact answers_expect rfl (refuse_other (18, .instructionWord) (by simp)) (Mirrors.jumpLabel a _ h ho).follows
  | @jumpLabel F σ a b h ho =>
    have hl := leads_steady 46 .jump t.payload.tree [(36, b), (18, a)] σ (by decide) rfl (goto_statement _ ho)
    exact answers_expect rfl (refuse_other (36, .number) (by simp)) (.of_leads hl (Mirrors.ended h ho rfl).follows)
  | @markLabel F σ a h ho =>
    have hl := leads_steady 37 .mark t.payload.tree [(19, a)] σ (by decide) rfl (goto_statement _ ho)
    exact answers_expect rfl (refuse_other (19, .number) (by simp)) (.of_leads hl (Mirrors.ended h ho rfl).follows)
  | thenWord a b test h ho =>
    exact answers_expect rfl (refuse_other (45, .thenWord) (by simp))
      (Mirrors.body (.thenPart a b _ test ho h) (.inl rfl)).follows
  | body h hc =>
    rw [Reader.feed]
    dsimp only
    split
    case isTrue hk =>
      refine answers_shift ?_ (Mirrors.indent _ h hc).follows
      rcases hc with hc | hc <;> rw [hc, hk] <;> rfl
    case isFalse hk =>
      refine answers_begin h (opens_of_conditional hc) fun hn => refuses_of_none ?_
      obtain ⟨h48, h52⟩ := (refuse_opening _ hn).2.2.2.2 hk
      rcases hc with hc | hc <;> rw [hc] <;> assumption
  | indent n h hc =>
    exact answers_expect rfl (refuse_other (50, .indent) (by simp))
      (Mirrors.statement (.noBlock _ n hc h) (by simp [ready])).follows
  | ended h ho hs => exact answers_complete h ho hs
  | @bodied F σ a b c test body h ho =>
    rw [Reader.feed]
    dsimp only
    split
    case isTrue hk =>
      exact answers_shift (by rw [hk]; rfl) (Mirrors.body (.elsePart a b c _ test body ho h) (.inr rfl)).follows
    case isFalse hk => exact .of_leadsAt (leadsAt_when ho hk a b c test body) (answers_complete h ho rfl)
  | accepted a d done =>
    have hf : Folds (some t.kind) [(20, a), (2, .list (d :: done).reverse)] [(1, .list (d :: done).reverse)] :=
      ⟨.input, rfl, rfl⟩
    exact ⟨_, .single hf, rfl⟩

theorem Follows.feed {r : Reader} {σ : Stack} (h : Follows r σ) (t : Token) : Answers t σ (r.feed t) := by
  obtain ⟨σ', hl, hm⟩ := h
  exact .of_leadsAt (hl _) (hm.feed t)

theorem refuse_end (s : Nat) (h1 : s ≠ 1) (h20 : s ≠ 20) : action? s none = none := by
  have hs : ∀ s < rows.length, s ≠ 1 → s ≠ 20 → action? s none = none := by
    decide
  by_cases h : s < rows.length
  · exact hs s h h1 h20
  · simp only [action?, List.getD_eq_getElem?_getD, List.getElem?_eq_none (Nat.le_of_not_lt h), Option.getD_none,
      List.lookup_nil]

/-- At the end of the tokens, the parser is about to accept exactly if the reader has read a program. -/
theorem Mirrors.ends {r : Reader} {σ : Stack} (h : Mirrors r σ) :
    (∃ a program, r.program? = some program ∧ σ = [(20, a), (2, .list program)]) ∨
      r.program? = none ∧ action? (top σ) none = none := by
  have hv : ∀ w ∈ wants, valued false w ≠ 1 ∧ valued false w ≠ 20 := by
    decide
  cases h with
  | accepted a d done => exact .inl ⟨a, _, rfl, rfl⟩
  | statement h ht | operand h ht =>
    exact .inr ⟨rfl, refuse_end _ (ne_of_mem_of_not_mem ht (by decide)) (ne_of_mem_of_not_mem ht (by decide))⟩
  | operator h hw he => exact .inr ⟨rfl, refuse_end _ (hv _ hw).1 (hv _ hw).2⟩
  | body h hc =>
    have ho := opens_of_conditional hc
    exact .inr ⟨rfl, refuse_end _ (ne_of_mem_of_not_mem ho (by decide)) (ne_of_mem_of_not_mem ho (by decide))⟩
  | _ => exact .inr ⟨rfl, refuse_end _ (by simp) (by simp)⟩

/-! ## Whole runs -/

/-- What a reader makes of tokens up to the end. -/
def outcome (r : Reader) (tokens : List Token) : Except ReadFault Tree :=
  match r.feedAll tokens with
  | .error fault => .error fault
  | .ok r =>
    match r.program? with
    | some program => .ok (.list program)
    | none => .error (.unexpected (endMarker none))

theorem Follows.comes_nil {r : Reader} {σ : Stack} (h : Follows r σ) : Comes σ [] (outcome r []) := by
  obtain ⟨σ', hl, hm⟩ := h
  rcases hm.ends with ⟨a, program, hp, rfl⟩ | ⟨hp, hn⟩
  · have ho : outcome r [] = .ok (.list program) := by
      simp only [outcome, feedAll, hp]
    rw [ho]
    rcases hl none with hr | ⟨-, hn⟩
    · exact .of_reduces hr ⟨2, rfl⟩
    · cases hn
  · have ho : outcome r [] = .error (.unexpected (endMarker none)) := by
      simp only [outcome, feedAll, hp]
    rw [ho]
    exact comes_of_refuses (.of_leadsAt (hl none) (refuses_of_none hn))

/-- The parser comes to what the reader makes of the tokens. -/
theorem Follows.comes {r : Reader} {σ : Stack} (h : Follows r σ) (tokens : List Token) :
    Comes σ tokens (outcome r tokens) := by
  induction tokens generalizing r σ with
  | nil => exact h.comes_nil
  | cons t rest ih =>
    have ha := h.feed t
    cases hr : r.feed t with
    | none =>
      have ho : outcome r (t :: rest) = .error (.unexpected t) := by
        simp only [outcome, feedAll, hr]
      have hc : Comes σ (t :: rest) (.error (.unexpected t)) := by
        rw [hr] at ha
        exact comes_of_refuses ha
      rw [ho]
      exact hc
    | some r' =>
      have ho : outcome r (t :: rest) = outcome r' rest := by
        simp only [outcome, feedAll, hr]
      rw [hr] at ha
      obtain ⟨σ', s, hred, hs, hf⟩ := ha
      have hstep : step σ' (t :: rest) = .on ((s, t.payload.tree) :: σ') rest := by
        simp only [step, List.head?_cons, Option.map_some, hs]
      rw [ho]
      exact .of_reduces hred (.of_step hstep (ih hf))

/-- On any tokens the parser halts with the program that the reader reads, or at the token that the reader refuses. -/
theorem run_programOf (tokens : List Token) :
    ∃ n, ∀ m, run (n + m) [] tokens = some ((Reader.programOf tokens).map Tree.list) := by
  have ho : outcome start tokens = (Reader.programOf tokens).map Tree.list := by
    rw [outcome, Reader.programOf]
    cases start.feedAll tokens with
    | error fault => rfl
    | ok r => cases h : r.program? <;> simp only [bind, Except.bind, h] <;> rfl
  obtain ⟨n, hn⟩ := (Mirrors.statement .empty (by decide)).follows.comes tokens
  exact ⟨n, fun m => ho ▸ run_add hn m⟩

end Pseudocode.Tables
