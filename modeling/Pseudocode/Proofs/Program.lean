import Mathlib
import Pseudocode.Proofs.Layout
import Pseudocode.Proofs.Shape

/-!
# Whole programs

A program that is read is a list of statements, but for its first item: that may be an expression, and then line ends
may stand behind it (`readProgram_program`).

What each item can be follows from the grammar. Where line ends stand does not: the grammar lets them stand behind
every item. But the reader gives a line end to the statement before it, and no two line ends come one after the other.
So it waits for the next item of a program only behind a line end (`Reader.Fits`), and what it takes for an item on
its own is the line end behind a first expression, or nothing.
-/

namespace Pseudocode

namespace Tree

/-- Whether a tree is a statement at its root. -/
def isStatement : Tree → Bool
  | assign .. | when .. | choose .. | give _ | print _ | jump _ | mark _ => true
  | _ => false

theorem Statement.isStatement {s : Tree} (h : Statement s) : s.isStatement := by
  cases h <;> rfl

theorem Expression.isStatement {e : Tree} (h : Expression e) : e.isStatement = false := by
  cases h with
  | number h => cases h <;> rfl
  | _ => rfl

/-- The items of a program, the last one first: statements, but for the first item and for one item right behind a
first that is no statement. -/
inductive Spaced : List Tree → Prop
  | nil : Spaced []
  | one (t : Tree) : Spaced [t]
  | line (l : Tree) {e : Tree} (he : e.isStatement = false) : Spaced [l, e]
  | more {s : Tree} {done : List Tree} (hs : s.isStatement) (h : Spaced done) : Spaced (s :: done)

end Tree

namespace Reader

/-! ## Where the reader puts a line end -/

/-- The items of the program that is read are spaced. -/
def SpacedIn (F : List Frame) : Prop :=
  ∀ done, Frame.program done ∈ F → Tree.Spaced done

theorem SpacedIn.tail {f : Frame} {F : List Frame} (h : SpacedIn (f :: F)) : SpacedIn F :=
  fun done hd => h done (List.mem_cons_of_mem f hd)

theorem SpacedIn.cons {f : Frame} {F : List Frame} (hf : ∀ done, f ≠ .program done) (h : SpacedIn F) :
    SpacedIn (f :: F) := by
  intro done hd
  rcases List.mem_cons.1 hd with rfl | hd
  · exact absurd rfl (hf done)
  · exact h done hd

theorem SpacedIn.program {done : List Tree} {F : List Frame} (hd : Tree.Spaced done) (h : SpacedIn F) :
    SpacedIn (.program done :: F) := by
  intro done' hd'
  rcases List.mem_cons.1 hd' with he | hd'
  · cases he
    exact hd
  · exact h done' hd'

def ModeFits : ReaderMode → Prop
  | .operator e _ => e.isStatement = false
  | .ended s => s.isStatement
  | _ => True

/-- A line end is the last token. -/
def EndsLine (ts : List Token) : Prop :=
  ∃ pre n, ts = pre ++ [n] ∧ n.kind = .newline

/-- The next item of a program is waited for only behind a line end. -/
structure Fits (r : Reader) (us : List Token) : Prop where
  frames : SpacedIn r.frames
  mode : ModeFits r.mode
  line : r.mode = .statement → ∀ d done F, r.frames = .program (d :: done) :: F → EndsLine us

section

variable {t : Token} {F : List Frame} {r : Reader} {us ts : List Token}

theorem Fits.of_mode (hF : SpacedIn r.frames) (hm : ModeFits r.mode) (hs : r.mode ≠ .statement) : Fits r us :=
  ⟨hF, hm, fun h => absurd h hs⟩

theorem begin_fits (hF : SpacedIn F) (h : begin t F = some r) : Fits r us := by
  unfold begin at h
  split at h
  case h_2 | h_3 => cases h; exact .of_mode (hF.cons (by simp)) trivial (by simp)
  case h_7 => cases h
  all_goals cases h; exact .of_mode hF trivial (by simp)

theorem isStatement_tree (p : Payload) : p.tree.isStatement = false := by
  cases p <;> rfl

theorem operand_fits (hF : SpacedIn F) (h : operand t F = some r) : Fits r us := by
  unfold operand at h
  split at h
  case h_1 | h_4 => cases h; exact .of_mode hF rfl (by simp)
  case h_2 | h_3 => cases h; exact .of_mode hF (isStatement_tree _) (by simp)
  case h_5 | h_6 => cases h; exact .of_mode (hF.cons (by simp)) trivial (by simp)
  case h_7 => cases h

/-- What is put to a conditional statement may be a whole block. -/
theorem place_conditional {f : Frame} {s : Tree} (hf : IsConditional f) (hF : SpacedIn F)
    (h : place s (f :: F) = some r) : Fits r us := by
  cases f with
  | thenPart => cases h; exact .of_mode hF trivial (by simp)
  | elsePart => cases h; exact .of_mode hF rfl (by simp)
  | _ => exact absurd hf id

theorem place_fits {s : Tree} (hs : s.isStatement) (hF : SpacedIn F) (hl : EndsLine us) (h : place s F = some r) :
    Fits r us := by
  cases F with
  | nil => cases h
  | cons f F =>
    cases f with
    | thenPart test => exact place_conditional (f := .thenPart test) trivial hF.tail h
    | elsePart test body => exact place_conditional (f := .elsePart test body) trivial hF.tail h
    | block => cases h; exact ⟨hF.tail.cons (by simp), trivial, by simp⟩
    | program done =>
      cases h
      exact ⟨hF.tail.program (.more hs (hF done List.mem_cons_self)), trivial, fun _ _ _ _ _ => hl⟩
    | _ => cases h

theorem atProgram_fits {d : Tree} {done : List Tree} (hF : SpacedIn (.program (d :: done) :: F))
    (hl : t.kind = .newline → done = [] ∧ d.isStatement = false)
    (h : atStatement t (.program (d :: done) :: F) = some r) : Fits r (us ++ [t]) := by
  rw [atStatement] at h
  split at h
  case h_1 hk =>
    cases h
    obtain ⟨rfl, hd⟩ := hl hk
    exact ⟨hF.tail.program (.line _ hd), trivial, fun _ _ _ _ _ => ⟨us, t, rfl, hk⟩⟩
  case h_2 => cases h; exact .of_mode hF trivial (by simp)
  case h_3 => exact begin_fits hF h

theorem atBlock_fits {d : Tree} {done : List Tree} (hF : SpacedIn F) (hr : Rests (.block (d :: done)) F)
    (h : atStatement t (.block (d :: done) :: F) = some r) : Fits r us := by
  rw [atStatement] at h
  split at h
  · cases F with
    | nil => exact absurd hr id
    | cons f F => exact place_conditional hr hF.tail h
  · have hb : SpacedIn (.block (d :: done) :: F) := hF.cons (by simp)
    exact begin_fits hb h

theorem unwind_fits {s : Tree} (ht : t.kind ≠ .newline) (hs : s.isStatement) (hF : SpacedIn F) (hS : Stacked F ts)
    (h : unwind t s F = some r) : Fits r (us ++ [t]) := by
  induction F generalizing s ts with
  | nil => cases h
  | cons f F ih =>
    cases hS with
    | cons _ hr hS =>
      cases f with
      | thenPart test =>
        rw [unwind] at h
        split at h
        · cases h; exact .of_mode (hF.tail.cons (by simp)) trivial (by simp)
        · exact ih rfl hF.tail hS h
      | elsePart test body => exact ih rfl hF.tail hS h
      | block done => exact atBlock_fits hF.tail (rests_block hr _) h
      | program done =>
        exact atProgram_fits (hF.tail.program (.more hs (hF done List.mem_cons_self))) (fun hk => absurd hk ht) h
      | _ => cases h

theorem complete_fits {s : Tree} (hs : s.isStatement) (hF : SpacedIn F) (hS : Stacked F ts)
    (h : complete t s F = some r) : Fits r (us ++ [t]) := by
  unfold complete at h
  split at h
  case isTrue hk => exact place_fits hs hF ⟨us, t, rfl, hk⟩ h
  case isFalse hk => exact unwind_fits hk hs hF hS h

theorem settle_fits (level : Nat) {e : Tree} {c : Bool} (he : e.isStatement = false) (hF : SpacedIn F) :
    (settle level e c F).1.isStatement = false ∧ SpacedIn (settle level e c F).2.2 := by
  fun_induction settle level e c F with
  | case1 e c F hl ih => exact ih rfl hF.tail
  | case3 e c op l a F hl ih =>
    refine ih ?_ hF.tail
    unfold combine
    split <;> rfl
  | _ => exact ⟨he, hF⟩

theorem conclude_fits {e : Tree} {c : Bool} (he : e.isStatement = false) (hF : SpacedIn F) (hS : Stacked F ts)
    (h : conclude t e c F = some r) : Fits r (us ++ [t]) := by
  cases hS with
  | nil => cases h
  | @cons f F _ _ _ _ hS =>
    cases f with
    | paren =>
      rw [conclude] at h
      split at h
      · cases h; exact .of_mode hF.tail he (by simp)
      · cases h
    | tested =>
      rw [conclude] at h
      split at h
      · cases h; exact .of_mode hF.tail trivial (by simp)
      · cases h
    | assigned | given | printed => exact complete_fits rfl hF.tail hS h
    | program done =>
      cases done with
      | nil => exact atProgram_fits (hF.tail.program (.one e)) (fun _ => ⟨rfl, he⟩) h
      | cons => cases h
    | _ => cases h

theorem operator_fits {e : Tree} {ms : List Token} (he : e.isStatement = false) (hy : Grammar.Yields .expression ms e)
    (hF : SpacedIn F) (hS : Stacked F ts) (h : operator t e false F = some r) : Fits r (us ++ [t]) := by
  unfold operator at h
  split at h
  case h_1 level _ =>
    cases h
    exact .of_mode ((settle_fits level he hF).2.cons (by simp)) trivial (by simp)
  case h_2 =>
    obtain ⟨us', ms', -, hs, -⟩ := settle_reads 0 hS (⟨hy, by simp⟩ : Operand ms e false)
    obtain ⟨he', hF'⟩ := settle_fits 0 he hF
    exact conclude_fits he' hF' hs h

theorem feed_fits {r' : Reader} (hR : Reads r us) (hr : Fits r us) (hl : t.kind = .newline → ¬EndsLine us)
    (h : r.feed t = some r') : Fits r' (us ++ [t]) := by
  obtain ⟨mode, F⟩ := r
  obtain ⟨ts, ms, rfl, hS, hm⟩ := hR
  obtain ⟨hF, hmode, hline⟩ := hr
  cases hm with
  | statement =>
    cases hS with
    | nil => cases h
    | @cons f F _ _ _ hrest _ =>
      cases f with
      | program done =>
        cases done with
        | nil =>
          rcases Option.or_eq_some_iff.1 h with h | ⟨-, h⟩
          · exact begin_fits hF h
          · exact operand_fits hF h
        | cons d done => exact atProgram_fits hF (fun hk => absurd (hline rfl d done F rfl) (hl hk)) h
      | block done =>
        cases done with
        | nil => exact begin_fits hF h
        | cons d done => exact atBlock_fits hF.tail hrest h
      | _ => cases h
  | operand => exact operand_fits hF h
  | printable =>
    rcases Option.or_eq_some_iff.1 h with h | ⟨-, h⟩
    · have hp : SpacedIn (.printed :: F) := hF.cons (by simp)
      exact operand_fits hp h
    · exact complete_fits rfl hF hS h
  | operator hy => exact operator_fits hmode hy hF hS h
  | target | instruction =>
    obtain ⟨-, rfl⟩ := expect_eq_some h
    exact .of_mode hF trivial (by simp)
  | jumpLabel | markLabel =>
    obtain ⟨-, rfl⟩ := expect_eq_some h
    exact .of_mode hF rfl (by simp)
  | be | thenWord =>
    obtain ⟨-, rfl⟩ := expect_eq_some h
    exact .of_mode (hF.cons (by simp)) trivial (by simp)
  | body =>
    dsimp only [Reader.feed] at h
    split at h
    · cases h
      exact .of_mode hF trivial (by simp)
    · exact begin_fits hF h
  | indent =>
    obtain ⟨-, rfl⟩ := expect_eq_some h
    exact ⟨hF.cons (by simp), trivial, by simp⟩
  | ended => exact complete_fits hmode hF hS h
  | bodied =>
    dsimp only [Reader.feed] at h
    split at h
    · cases h
      exact .of_mode (hF.cons (by simp)) trivial (by simp)
    · exact complete_fits rfl hF hS h
  | accepted => cases h

theorem feedAll_fits {r' : Reader} (hw : LinesWritten (us ++ ts)) (hR : Reads r us) (hr : Fits r us)
    (h : r.feedAll ts = .ok r') : Fits r' (us ++ ts) := by
  induction ts generalizing r us with
  | nil =>
    cases h
    rwa [List.append_nil]
  | cons t ts ih =>
    rw [feedAll] at h
    split at h
    case h_1 => cases h
    case h_2 r₁ hf =>
      -- What stands before a line end is a token of its line, and so is no line end.
      have hl : t.kind = .newline → ¬EndsLine us := by
        rintro hk ⟨pre, n, he, hn⟩
        obtain ⟨pre', u, hu, hreal⟩ := hw us t ts rfl hk
        rw [he] at hu
        obtain ⟨-, hlast⟩ := List.append_inj' hu rfl
        cases hlast
        exact TokenKind.isReal_ne hreal rfl hn
      rw [← List.singleton_append, ← List.append_assoc] at hw ⊢
      exact ih hw (hR.feed hf) (feed_fits hR hr hl hf) h

end

theorem spaced_programOf {ts : List Token} {program : List Tree} (hw : LinesWritten ts)
    (h : programOf ts = .ok program) : Tree.Spaced program.reverse := by
  obtain ⟨r, hr, hp⟩ := programOf_eq_ok.1 h
  obtain ⟨done, rfl, rfl⟩ := program?_eq_some hp
  have h0 : Fits start [] := ⟨SpacedIn.program .nil nofun, trivial, nofun⟩
  rw [List.reverse_reverse]
  exact (feedAll_fits (show LinesWritten ([] ++ ts) from hw) reads_start h0 hr).frames done List.mem_cons_self

end Reader

/-! ## Programs -/

namespace Tree

/-- A whole program: statements, of which the first one may be an expression instead. Behind that, line ends may
stand. -/
inductive Program : List Tree → Prop
  | statements {ss : List Tree} (hn : ss ≠ []) (h : ∀ s ∈ ss, Statement s) : Program ss
  | expression {e : Tree} {ss : List Tree} (he : Expression e) (h : ∀ s ∈ ss, Statement s) : Program (e :: ss)
  | expressionLine {e : Tree} {l : String} {ss : List Tree} (he : Expression e) (hl : IsLineEnds l)
      (h : ∀ s ∈ ss, Statement s) : Program (e :: .text l :: ss)

theorem forall_snoc {ss : List Tree} (h : ∀ s ∈ ss, Statement s) {s : Tree} (hs : Statement s) :
    ∀ u ∈ ss ++ [s], Statement u := by
  intro u hu
  rcases List.mem_append.1 hu with hu | hu
  · exact h u hu
  · exact List.mem_singleton.1 hu ▸ hs

theorem Program.snoc {items : List Tree} (h : Program items) {s : Tree} (hs : Statement s) :
    Program (items ++ [s]) := by
  cases h with
  | statements hn h => exact .statements (List.append_ne_nil_of_left_ne_nil hn _) (forall_snoc h hs)
  | expression he h => exact .expression he (forall_snoc h hs)
  | expressionLine he hl h => exact .expressionLine he hl (forall_snoc h hs)

theorem Item.statement_of {t : Tree} (h : Item t) (ht : t.isStatement) : Statement t := by
  cases h with
  | statement h => exact h
  | expression h => rw [h.isStatement] at ht; cases ht
  | lineEnds => cases ht

theorem Items.dropLast {items : List Tree} {t : Tree} (h : Items (items ++ [t])) (hn : items ≠ []) : Items items := by
  obtain ⟨first, rest, rfl⟩ := List.exists_cons_of_ne_nil hn
  cases h with
  | intro hf hr => exact .intro hf fun u hu => hr u (List.mem_append_left _ hu)

theorem Items.program {done : List Tree} (hi : Items done.reverse) (hs : Spaced done) : Program done.reverse := by
  induction hs with
  | nil => cases hi
  | one t =>
    obtain ⟨hf | hf, -⟩ := hi
    · exact .statements nofun (by simpa using hf)
    · exact .expression hf nofun
  | @line l e he =>
    obtain ⟨hf | hf, hr⟩ := hi
    · rw [hf.isStatement] at he
      cases he
    · rcases hr l List.mem_cons_self with hs | ⟨s, rfl, hl⟩
      · exact .expression hf (by simpa using hs)
      · exact .expressionLine hf hl nofun
  | @more s done hs _ ih =>
    have hst : Statement s := (hi.item s (by simp)).statement_of hs
    rw [List.reverse_cons] at hi ⊢
    by_cases hd : done = []
    · subst hd
      exact .statements nofun (by simpa using hst)
    · exact (ih (hi.dropLast (by simpa using hd))).snoc hst

/-! ## Building a program again -/

mutual

/-- Builds a tree again from its leaves, with the checks that operations and comparisons make. -/
def rebuild : Tree → Except Fault Tree
  | list items => return list (← rebuildAll items)
  | operation op operands => do operation? op (← rebuildAll operands)
  | comparison op operands => do comparison? op (← rebuildAll operands)
  | assign x e => return assign x (← rebuild e)
  | when test body => return when (← rebuild test) (← rebuild body)
  | choose test body other => return choose (← rebuild test) (← rebuild body) (← rebuild other)
  | give e => return give (← rebuild e)
  | print e => return print (← rebuild e)
  | jump l => return jump (← rebuild l)
  | mark l => return mark (← rebuild l)
  | t => return t

def rebuildAll : List Tree → Except Fault (List Tree)
  | [] => return []
  | t :: rest => return (← rebuild t) :: (← rebuildAll rest)

end

theorem rebuildAll_ok {ts : List Tree} (h : ∀ t ∈ ts, t.rebuild = .ok t) : rebuildAll ts = .ok ts := by
  induction ts with
  | nil => rfl
  | cons t ts ih =>
    rw [rebuildAll, h t List.mem_cons_self, ih fun u hu => h u (List.mem_cons_of_mem t hu)]
    rfl

theorem operation?_binary {op : String} (ho : isBinary op) (a b : Tree) :
    operation? op [a, b] = .ok (.operation op [a, b]) := by
  have hu : isUnary op = false := by
    simp only [isBinary, Bool.or_eq_true, beq_iff_eq] at ho
    rcases ho with ((rfl | rfl) | rfl) | rfl <;> decide
  simp [operation?, hu]

theorem comparison?_comparing {op : String} (ho : isComparing op) (a b : Tree) :
    comparison? op [a, b] = .ok (.comparison op [a, b]) := by
  simp [comparison?, ho]

theorem Expression.rebuild {e : Tree} (h : Expression e) : e.rebuild = .ok e := by
  induction h with
  | number h => cases h <;> rfl
  | truth | string | name => rfl
  | negation _ ih =>
    rw [Tree.rebuild, rebuildAll_ok (by simpa using ⟨rfl, ih⟩)]
    exact operation?_binary (show isBinary "*" from rfl) _ _
  | operation ho _ _ iha ihb =>
    rw [Tree.rebuild, rebuildAll_ok (by simpa using ⟨iha, ihb⟩)]
    exact operation?_binary ho _ _
  | comparison ho _ _ iha ihb =>
    rw [Tree.rebuild, rebuildAll_ok (by simpa using ⟨iha, ihb⟩)]
    exact comparison?_comparing ho _ _

theorem Test.rebuild {t : Tree} (h : Test t) : t.rebuild = .ok t := by
  obtain ⟨ho, ha, hb⟩ := h
  exact (Expression.comparison ho ha hb).rebuild

mutual

theorem Statement.rebuild : ∀ {s : Tree}, Statement s → s.rebuild = .ok s
  | _, .assign _ he => by rw [Tree.rebuild, he.rebuild]; rfl
  | _, .when ht hb => by rw [Tree.rebuild, ht.rebuild, hb.rebuild]; rfl
  | _, .choose ht hb ho => by rw [Tree.rebuild, ht.rebuild, hb.rebuild, ho.rebuild]; rfl
  | _, .give he => by rw [Tree.rebuild, he.rebuild]; rfl
  | _, .print he => by rw [Tree.rebuild, he.rebuild]; rfl
  | _, .printEmpty => rfl
  | _, .jump hl => by rw [Tree.rebuild, (Expression.number hl).rebuild]; rfl
  | _, .mark hl => by rw [Tree.rebuild, (Expression.number hl).rebuild]; rfl

theorem Body.rebuild : ∀ {b : Tree}, Body b → b.rebuild = .ok b
  | _, .one h => h.rebuild
  | _, .many _ h => by rw [Tree.rebuild, rebuildAll_ok fun s hs => (h s hs).rebuild]; rfl

end

theorem Item.rebuild {t : Tree} (h : Item t) : t.rebuild = .ok t := by
  cases h with
  | statement h => exact h.rebuild
  | expression h => exact h.rebuild
  | lineEnds => rfl

end Tree

/-- Every program that is read has the shape of a program, and building it again, node by node, no node refuses its
parts. -/
theorem readProgram_program (source : String) (program : List Tree) (h : readProgram source = .ok program) :
    Tree.Program program ∧ Tree.rebuildAll program = .ok program := by
  have hi := readProgram_items h
  have hs := Reader.spaced_programOf (linesWritten_tokens 1 true source.toList) (readProgram_eq_ok h)
  rw [← program.reverse_reverse] at hi
  constructor
  · have hp := hi.program hs
    rwa [program.reverse_reverse] at hp
  · exact Tree.rebuildAll_ok fun t ht => (readProgram_shaped h t ht).rebuild

/-- An expression, and behind line ends a conditional statement with a block. -/
def sampler : List Tree :=
  [.operation "*" [.int (-1), .name "a"], .text "\n\n",
    .choose (.comparison "<" [.name "a", .int 3]) (.list [.print .none, .mark (.int 1)]) (.mark (.int 2))]

theorem readProgram_program_sampler :
    readProgram "-a\n\nif a < 3, then\n  print\n  @1\nelse @2" = .ok sampler ∧ Tree.Program sampler ∧
      Tree.rebuildAll sampler = .ok sampler := by
  have h : readProgram "-a\n\nif a < 3, then\n  print\n  @1\nelse @2" = .ok sampler := by cbv
  exact ⟨h, readProgram_program _ sampler h⟩

end Pseudocode
