import Pseudocode.Proofs.Direct
import Pseudocode.Proofs.JoinedProgram

/-!
# Programs that are one expression

A program that is read and has no statement is an expression, maybe with line ends behind it. Running it changes no
variable and prints nothing, and it fails exactly as the expression does. But its result is not always the value of the
expression: line ends are an item of the program and leave their own text, and a fraction that stands alone is passed
over (`evaluate_expression`).
-/

namespace Pseudocode

/-- What a program comes to that gives just what a computation gives. -/
def Outcome.ofValue : Except Fault Tree → Outcome
  | .ok v => .done (.value v)
  | .error f => .failed f

namespace Tree

/-- What an item that is no statement results in: fractions are passed over, and all else is worked out. -/
def worth (σ : Store) : Tree → Except Fault Tree
  | float _ => .ok none
  | t => t.eval σ

/-- What items that are no statements result in, one after the other: what the last of them does. The result is `v` if
there are none. -/
def lastWorth (σ : Store) (v : Tree) : List Tree → Except Fault Tree
  | [] => .ok v
  | t :: ts => t.worth σ >>= fun w => lastWorth σ w ts

theorem Expression.kind_float {e : Tree} (h : Expression e) (hk : e.kind = .float) : ∃ x, e = .float x := by
  cases h with
  | number h =>
    cases h with
    | whole => cases hk
    | @real x _ => exact ⟨x, rfl⟩
  | _ => cases hk

/-- The value of an expression is its result, unless it is a fraction. -/
theorem Expression.worth_eq {e : Tree} (h : Expression e) (σ : Store) :
    e.worth σ = (e.eval σ).map fun v => if e.kind = .float then .none else v := by
  by_cases hk : e.kind = .float
  · obtain ⟨x, rfl⟩ := h.kind_float hk
    rfl
  · have hw : e.worth σ = e.eval σ := by
      unfold worth
      split
      · exact absurd rfl hk
      · rfl
    rw [hw]
    simp only [if_neg hk]
    cases e.eval σ <;> rfl

/-- A program without statements is an expression, maybe with line ends behind it. -/
theorem Program.expression_of {e : Tree} {rest : List Tree} (h : Program (e :: rest))
    (hn : ∀ t ∈ e :: rest, t.isStatement = false) :
    Expression e ∧ (rest = [] ∨ ∃ l, IsLineEnds l ∧ rest = [.text l]) := by
  have hnil {ss : List Tree} (hs : ∀ s ∈ ss, Statement s) (hm : ∀ s ∈ ss, s ∈ e :: rest) : ss = [] :=
    List.eq_nil_iff_forall_not_mem.2 fun s h => by
      have hs := (hs s h).isStatement
      rw [hn s (hm s h)] at hs
      cases hs
  cases h with
  | statements _ h => cases hnil h fun _ hs => hs
  | expression he h => exact ⟨he, .inl (hnil h fun _ hs => List.mem_cons_of_mem _ hs)⟩
  | @expressionLine _ l ss he hl h =>
    have hs : ss = [] := hnil h fun _ hs => List.mem_cons_of_mem _ (List.mem_cons_of_mem _ hs)
    exact ⟨he, .inr ⟨l, hl, by rw [hs]⟩⟩

section

variable {e : Tree} {rest : List Tree} (he : Expression e) (hr : rest = [] ∨ ∃ l, IsLineEnds l ∧ rest = [.text l])

include he hr

/-- An expression with line ends behind it results in them. -/
theorem Expression.lastWorth_eq (σ : Store) :
    lastWorth σ .none (e :: rest) =
      (e.eval σ).map fun v => rest.headD (if e.kind = .float then .none else v) := by
  rw [lastWorth, he.worth_eq]
  rcases hr with rfl | ⟨l, -, rfl⟩
  · cases e.eval σ <;> rfl
  · cases e.eval σ <;> rfl

theorem Expression.ofValue_eq_iff (σ : Store) :
    Outcome.ofValue ((e.eval σ).map fun v => rest.headD (if e.kind = .float then .none else v)) =
        .ofValue (e.eval σ) ↔
      ∀ v, e.eval σ = .ok v → rest = [] ∧ e.kind ≠ .float ∨ rest = [v] := by
  cases hv : e.eval σ with
  | error f => simp [Except.map]
  | ok v =>
    have hd : Outcome.ofValue (Except.map (fun v => rest.headD (if e.kind = .float then .none else v)) (.ok v)) =
        .ofValue (.ok v) ↔ rest.headD (if e.kind = .float then .none else v) = v := by
      simp [Except.map, Outcome.ofValue]
    rw [hd]
    rcases hr with rfl | ⟨l, -, rfl⟩
    · by_cases hk : e.kind = .float
      · obtain ⟨x, rfl⟩ := he.kind_float hk
        cases hv
        simp [kind]
      · simp [hk]
    · simp

end

end Tree

/-- A program that is read has the shape of one. -/
theorem readProgram_isProgram {source : String} {program : List Tree} (h : readProgram source = .ok program) :
    Tree.Program program := by
  have hi := readProgram_items h
  have hs := Reader.spaced_programOf (linesWritten_tokens 1 true source.toList) (readProgram_eq_ok h)
  rw [← program.reverse_reverse] at hi ⊢
  exact hi.program hs

namespace Machine

/-- Items that are done for what they are worth. -/
def Worked (t : Tree) : Prop :=
  t.Expression ∨ ∃ l, t = .text l

theorem worked_of {e : Tree} {rest : List Tree} (he : e.Expression)
    (hr : rest = [] ∨ ∃ l, IsLineEnds l ∧ rest = [.text l]) : ∀ t ∈ e :: rest, Worked t := by
  intro t ht
  rcases hr with rfl | ⟨l, -, rfl⟩
  · rw [List.mem_singleton.1 ht]
    exact .inl he
  · obtain rfl | ht := List.mem_cons.1 ht
    · exact .inl he
    · exact .inr ⟨l, List.mem_singleton.1 ht⟩

theorem perform_worked {t : Tree} (h : Worked t) (env : Setting) (m : Machine) :
    m.perform env t = t.worth m.store >>= fun v => .ok (.value v, m) := by
  rcases h with h | ⟨l, rfl⟩
  · cases h with
    | number h => cases h <;> rfl
    | _ => rfl
  · rfl

section

variable {env : Setting} {m : Machine} {t : Tree} {ts : List Tree} (h : Worked t) (hq : m.queue = t :: ts)

include h hq

/-- One item: it is worked out, and its worth becomes the result. -/
theorem step_worked {v : Tree} (hv : t.worth m.store = .ok v) :
    ∃ captured, m.step env = .running { m with queue := ts, captured, result := .value v } := by
  have hp : ({ m with queue := ts } : Machine).perform env t = .ok (.value v, { m with queue := ts }) := by
    rw [perform_worked h, hv]
    rfl
  obtain ⟨captured, hn⟩ := note_value v { m with queue := ts }
  exact ⟨captured, by rw [step_of_perform hq hp, hn]⟩

theorem step_worked_failed {f : Fault} (hf : t.worth m.store = .error f) : m.step env = .failed f := by
  rw [step_eq hq, effect, perform_worked h, hf]
  rfl

end

/-- All items: the machine stops with what the last of them is worth, or at the first that fails. -/
theorem run_worked {ts : List Tree} (h : ∀ t ∈ ts, Worked t) (env : Setting) {m : Machine} (hq : m.queue = ts)
    {v : Tree} (hv : m.result = .value v) {n : Nat} (hn : ts.length ≤ n) :
    ∃ m' ending, m.run env n = (m', ending) ∧ m'.store = m.store ∧ m'.output = m.output ∧
      Session.outcomeOf false m' ending = .ofValue (Tree.lastWorth m.store v ts) := by
  induction ts generalizing m v n with
  | nil =>
    refine ⟨m, .finished, run_of_queue hq n, rfl, rfl, ?_⟩
    show Outcome.done m.result = _
    rw [hv]
    rfl
  | cons t ts ih =>
    obtain ⟨k, rfl⟩ := Nat.exists_eq_add_of_le hn
    rw [List.length_cons, Nat.add_right_comm, run, Tree.lastWorth]
    have ht := h t List.mem_cons_self
    cases hw : t.worth m.store with
    | error f =>
      rw [step_worked_failed ht hq hw]
      exact ⟨m, .failed f, rfl, rfl, rfl, rfl⟩
    | ok w =>
      obtain ⟨captured, hs⟩ := step_worked ht hq hw
      rw [hs]
      exact ih (fun u hu => h u (List.mem_cons_of_mem t hu)) rfl rfl (Nat.le_add_right _ _)

end Machine

namespace Session

open Machine

/-- A program of no statements is an expression `e`, maybe with line ends behind it. Running it leaves all variables and
prints nothing. It fails exactly as `e` does, and else results in the line ends, or in the value of `e` if there are
none, or in nothing if `e` is a fraction. So it gives just what `e` gives if `e` fails, if `e` stands alone and is no
fraction, and if the value of `e` is these line ends. -/
theorem evaluate_expression {source : String} {e : Tree} {rest : List Tree} (h : readProgram source = .ok (e :: rest))
    (hn : ∀ t ∈ e :: rest, t.isStatement = false) (s : Session) (hc : s.context = []) {n : Nat}
    (hf : (e :: rest).length ≤ n) :
    e.Expression ∧ (rest = [] ∨ ∃ l, IsLineEnds l ∧ rest = [.text l]) ∧
      (s.evaluate n false (.list (e :: rest))).1 = { s with context := [.list (e :: rest)] } ∧
      (s.evaluate n false (.list (e :: rest))).2.1 = "" ∧
      (s.evaluate n false (.list (e :: rest))).2.2 =
        .ofValue ((e.eval s.store).map fun v => rest.headD (if e.kind = .float then .none else v)) ∧
      ((s.evaluate n false (.list (e :: rest))).2.2 = .ofValue (e.eval s.store) ↔
        ∀ v, e.eval s.store = .ok v → rest = [] ∧ e.kind ≠ .float ∨ rest = [v]) := by
  obtain ⟨he, hr⟩ := (readProgram_isProgram h).expression_of hn
  obtain ⟨m, ending, hm, hs, ho, hv⟩ := run_worked (worked_of he hr) (s.settingOf false (.list (e :: rest)))
    (m := load (.list (e :: rest)) s.store) rfl rfl hf
  have hw : Outcome.ofValue (Tree.lastWorth s.store .none (e :: rest)) =
      .ofValue ((e.eval s.store).map fun v => rest.headD (if e.kind = .float then .none else v)) := by
    rw [he.lastWorth_eq hr s.store]
  rw [evaluate_eq n false _ s hm]
  refine ⟨he, hr, ?_, ho, hv.trans hw, ?_⟩
  · rw [hs, hc]
    simp [remember, load]
  · show outcomeOf false m ending = _ ↔ _
    rw [hv.trans hw]
    exact he.ofValue_eq_iff hr s.store

theorem evaluate_expression_difference :
    let s : Session := ⟨⟨[("a", .int 5)]⟩, [], [], false⟩
    let e : Tree := .operation "-" [.name "a", .int 2]
    readProgram "(a) - 2" = .ok [e] ∧ e.eval s.store = .ok (.int 3) ∧
      (s.evaluate 1 false (.list [e])).2 = ("", .done (.value (.int 3))) := by
  intro s e
  have h : readProgram "(a) - 2" = .ok [e] := by cbv
  have hv : e.eval s.store = .ok (.int 3) := by cbv
  have hn : ∀ t ∈ [e], t.isStatement = false := by simp [e, Tree.isStatement]
  obtain ⟨-, -, -, ho, hr, -⟩ := evaluate_expression h hn s rfl (Nat.le_refl 1)
  rw [hv] at hr
  exact ⟨h, hv, Prod.ext ho hr⟩

/-- A whole number with a line end behind it results in the line end, and a fraction in nothing. -/
theorem evaluate_expression_lost :
    (readProgram "1\n" = .ok [.int 1, .text "\n"] ∧
        (fresh.evaluate 2 false (.list [.int 1, .text "\n"])).2.2 = .done (.value (.text "\n")) ∧
        (Tree.int 1).eval fresh.store = .ok (.int 1)) ∧
      ∃ x, readProgram "1.5" = .ok [.float x] ∧
        (fresh.evaluate 1 false (.list [.float x])).2.2 = .done (.value .none) ∧
        (Tree.float x).eval fresh.store = .ok (.float x) := by
  refine ⟨⟨by cbv, rfl, rfl⟩, Number.ofPlaces ['1'] ['5'], ?_, rfl, rfl⟩
  -- The pieces of the text are worked out, but not the fraction that the one of them stands for.
  have hp : Piece.cut "1.5".toList = ([⟨.number, ['1', '.', '5']⟩], []) := by cbv
  rw [readProgram_ok_iff_spells, Spells, hp]
  exact ⟨rfl, _, _, rfl, rfl, rfl⟩

end Session

end Pseudocode
