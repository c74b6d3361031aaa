import Pseudocode.Proofs.Jump
import Pseudocode.Proofs.Shape
/-!
# Programs that were read run safely

Variables hold numbers, truth values and string literals, and nothing else. A program that was read keeps them
so however long it runs and wherever it jumps, and it can fail only with the faults of `Fault.ofRun`: a test, an
operation or a jump never meets a tree that it has no use for (`evaluate_safe`).

`Safe P x` says of a computation `x` that it gives a result with `P` or fails with one of these faults.
-/

namespace Pseudocode

/-- The faults that a running program can end with. -/
def Fault.ofRun : Fault → Bool
  | undefined _ | divisionByZero | markMissing _ | markAlone | longNumber | mixedOperands => true
  | unsupported .. | unordered .. | repetition _ | wholeTooLarge | quotientTooLarge => true
  | _ => false

/-- The computation gives a result with a property, or fails with a fault of running programs. -/
def Safe {α : Type} (P : α → Prop) : Except Fault α → Prop
  | .ok a => P a
  | .error f => f.ofRun

theorem Safe.bind {α β : Type} {P : α → Prop} {Q : β → Prop} {x : Except Fault α} {f : α → Except Fault β}
    (hx : Safe P x) (hf : ∀ a, P a → Safe Q (f a)) : Safe Q (x >>= f) := by
  cases x with
  | ok a => exact hf a hx
  | error e => exact hx

namespace Tree

/-- A value that a variable can have. -/
inductive Value : Tree → Prop
  | bool (b : Bool) : Value (.bool b)
  | int (n : Int) : Value (.int n)
  | float (x : Float) : Value (.float x)
  | nan (i : Nat) : Value (.nan i)
  | text {s : String} (h : IsLiteral s) : Value (.text s)

end Tree

/-- All variables have such values. -/
def Store.Sound (σ : Store) : Prop :=
  ∀ e ∈ σ.entries, e.2.Value

/-! ## Values -/

/-- Joined literals are a literal. -/
theorem IsLiteral.join {s t : String} (hs : IsLiteral s) (ht : IsLiteral t) : IsLiteral (joinQuoted s t) := by
  obtain ⟨cs, hc, es⟩ := hs
  obtain ⟨ds, hd, et⟩ := ht
  refine ⟨cs ++ ds, hc.append hd, ?_⟩
  have e : ('"' :: (cs ++ ['"'])).dropLast = '"' :: cs := by
    rw [← List.cons_append, List.dropLast_concat]
  simp [joinQuoted, es, et, e]

theorem Num.toFloat_safe (a : Num) : Safe (fun _ => True) a.toFloat := by
  cases a with
  | float x => trivial
  | int n =>
    unfold toFloat
    dsimp only
    split
    · trivial
    · rfl

/-- A computation on two numbers as fractions. -/
theorem Num.floats_safe (f : Float → Float → Float) (a b : Num) :
    Safe Tree.Value (do return .float (f (← a.toFloat) (← b.toFloat))) :=
  a.toFloat_safe.bind fun x _ => b.toFloat_safe.bind fun y _ => .float (f x y)

theorem Num.combine_safe (f : Int → Int → Int) (g : Float → Float → Float) (a b : Num) :
    Safe Tree.Value (a.combine f g b) := by
  unfold combine
  split
  · exact .int _
  · exact floats_safe g a b

theorem Num.divide_safe (a b : Num) : Safe Tree.Value (a.divide b) := by
  unfold divide
  split
  case h_1 m n =>
    split
    · exact .float _
    · rfl
  case h_2 => exact floats_safe (· / ·) a b

namespace Tree

theorem add_safe {a b : Tree} (ha : Value a) (hb : Value b) : Safe Value (a.add b) := by
  unfold add
  split
  case h_1 s t =>
    cases ha with
    | text hs => cases hb with
      | text ht => exact .text (hs.join ht)
  case h_2 => cases ha
  case h_3 =>
    split
    · exact Num.combine_safe ..
    · rfl

theorem subtract_safe (a b : Tree) : Safe Value (a.subtract b) := by
  unfold subtract
  split
  · exact Num.combine_safe ..
  · rfl

theorem multiply_safe (a b : Tree) : Safe Value (a.multiply b) := by
  unfold multiply
  split
  · exact Num.combine_safe ..
  · split <;> rfl

theorem divide_safe (a b : Tree) : Safe Value (a.divide b) := by
  unfold divide
  split
  · rfl
  · split
    · exact Num.divide_safe ..
    · rfl

theorem operate_safe {op : String} {a b : Tree} (ho : isBinary op) (ha : Value a) (hb : Value b) :
    Safe Value (operate op [a, b]) := by
  unfold operate
  rw [if_pos ho]
  split
  · rfl
  · dsimp only
    split
    · exact add_safe ha hb
    · split
      · exact subtract_safe a b
      · split
        · exact multiply_safe a b
        · exact divide_safe a b

theorem ordered_safe {a b : Tree} (op : String) (ha : Value a) (hb : Value b) :
    Safe (fun _ => True) (ordered op a b) := by
  cases ha <;> cases hb <;> simp [ordered, num?, Safe, Fault.ofRun]

theorem compares_safe {op : String} {a b : Tree} (ho : isComparing op) (ha : Value a) (hb : Value b) :
    Safe (fun _ => True) (compares op a b) := by
  unfold compares
  rw [if_pos ho]
  split
  · trivial
  · split
    · trivial
    · exact ordered_safe op ha hb

theorem compareAll_safe {op : String} {a b : Tree} (ho : isComparing op) (ha : Value a) (hb : Value b) :
    Safe (fun _ => True) (compareAll op [a, b]) := by
  unfold compareAll
  dsimp only
  split
  · trivial
  · exact compares_safe ho ha hb

/-! ## Expressions -/

theorem get?_value {σ : Store} (hσ : σ.Sound) {x : String} {v : Tree} (h : σ.get? x = some v) : Value v := by
  obtain ⟨l⟩ := σ
  unfold Store.get? at h
  fun_induction Store.lookUp x l with
  | case1 => cases h
  | case2 => cases h; exact hσ _ List.mem_cons_self
  | case3 y w rest _ ih => exact ih (fun e he => hσ e (List.mem_cons_of_mem _ he)) h

theorem evalAll_safe {σ : Store} {ts : List Tree} (h : ∀ t ∈ ts, Safe Value (t.eval σ)) :
    Safe (List.Forall₂ (fun _ v => Value v) ts) (evalAll σ ts) := by
  induction ts with
  | nil => exact .nil
  | cons t ts ih =>
    rw [evalAll]
    have ih := ih fun u hu => h u (List.mem_cons_of_mem t hu)
    apply (h t List.mem_cons_self).bind
    intro v hv
    exact ih.bind fun vs hs => .cons hv hs

theorem operation_safe {σ : Store} {op : String} {a b : Tree} (ho : isBinary op) (ha : Safe Value (a.eval σ))
    (hb : Safe Value (b.eval σ)) : Safe Value (eval σ (.operation op [a, b])) := by
  rw [eval]
  apply (evalAll_safe (by simp [ha, hb])).bind
  rintro _ (_ | ⟨hv, _ | ⟨hw, _ | _⟩⟩)
  exact operate_safe ho hv hw

/-- An expression has a value that a variable can have. -/
theorem eval_safe {σ : Store} (hσ : σ.Sound) {e : Tree} (he : Expression e) : Safe Value (e.eval σ) := by
  induction he with
  | number h => cases h <;> rw [eval] <;> constructor
  | truth b => exact .bool b
  | string h => exact .text h
  | name x =>
    rw [eval]
    split
    case h_1 v hv => exact get?_value hσ hv
    case h_2 => rfl
  | negation _ ih => exact operation_safe (by decide) (Value.int (-1)) ih
  | operation ho _ _ iha ihb => exact operation_safe ho iha ihb
  | comparison ho _ _ iha ihb =>
    rw [eval]
    apply (evalAll_safe (by simp [iha, ihb])).bind
    rintro _ (_ | ⟨hv, _ | ⟨hw, _ | _⟩⟩)
    exact (compareAll_safe ho hv hw).bind fun b _ => .bool b

theorem test_safe {σ : Store} (hσ : σ.Sound) {t : Tree} (ht : Test t) : Safe (fun _ => True) (t.test σ) := by
  obtain ⟨ho, ha, hb⟩ := ht
  apply (evalAll_safe (by simp [eval_safe hσ ha, eval_safe hσ hb])).bind
  rintro _ (_ | ⟨hv, _ | ⟨hw, _ | _⟩⟩)
  exact compareAll_safe ho hv hw

theorem show?_safe {v : Tree} (hv : Value v) : Safe (fun _ => True) v.show? := by
  cases hv with
  | int n =>
    rw [show?, render, wholeText]
    generalize longNumberBound = bound
    split
    · trivial
    · rfl
  | _ => trivial

end Tree

theorem Store.Sound.set {σ : Store} (hσ : σ.Sound) (x : String) {v : Tree} (hv : v.Value) : (σ.set x v).Sound := by
  obtain ⟨l⟩ := σ
  unfold Store.set Store.Sound at *
  fun_induction Store.put x v l with
  | case1 => simpa using hv
  | case2 w rest =>
    rw [List.forall_mem_cons] at hσ ⊢
    exact ⟨hv, hσ.2⟩
  | case3 y w rest _ ih =>
    rw [List.forall_mem_cons] at hσ ⊢
    exact ⟨hσ.1, ih hσ.2⟩

/-! ## Machines -/

namespace Tree

/-- What can stand in a queue: an item of a program, or a body that is a list. -/
inductive Runnable : Tree → Prop
  | statement {s : Tree} (h : Statement s) : Runnable s
  | expression {e : Tree} (h : Expression e) : Runnable e
  | lineEnds (s : String) : Runnable (.text s)
  | list {ss : List Tree} (h : ∀ s ∈ ss, Statement s) : Runnable (.list ss)

theorem Item.runnable {t : Tree} (h : Item t) : Runnable t := by
  cases h with
  | statement h => exact .statement h
  | expression h => exact .expression h
  | lineEnds => exact .lineEnds _

theorem Body.runnable {t : Tree} (h : Body t) : Runnable t := by
  cases h with
  | one h => exact .statement h
  | many _ h => exact .list h

/-- No expression is a list or a conditional statement. -/
theorem Expression.kind_ne {e : Tree} (h : Expression e) :
    e.kind ≠ .list ∧ e.kind ≠ .when ∧ e.kind ≠ .choose := by
  cases h with
  | number h => cases h <;> exact ⟨nofun, nofun, nofun⟩
  | _ => exact ⟨nofun, nofun, nofun⟩

/-- What can stand in a queue is made of what can stand in a queue. -/
theorem Runnable.inherited : Inherited Runnable where
  items h t ht := by
    cases h with
    | statement h => cases h
    | expression h => exact absurd rfl h.kind_ne.1
    | list h => exact .statement (h t ht)
  body h := by
    cases h with
    | statement h => cases h with
      | when _ hb => exact hb.runnable
    | expression h => exact absurd rfl h.kind_ne.2.1
  chosen h := by
    cases h with
    | statement h => cases h with
      | choose _ hb _ => exact hb.runnable
    | expression h => exact absurd rfl h.kind_ne.2.2
  other h := by
    cases h with
    | statement h => cases h with
      | choose _ _ ho => exact ho.runnable
    | expression h => exact absurd rfl h.kind_ne.2.2

theorem Runnable.statements {t : Tree} (h : Runnable t) : ∀ s ∈ t.statements, Runnable s := by
  cases t with
  | list items => exact inherited.items h
  | _ =>
    intro s hs
    exact (List.mem_singleton.1 hs) ▸ h

end Tree

namespace Machine

open Pseudocode.Tree

/-- A machine that runs a program of the right shape on variables with the right values. -/
structure Sound (m : Machine) : Prop where
  queue : ∀ t ∈ m.queue, Runnable t
  store : m.store.Sound

theorem Sound.queueFirst {m : Machine} (hm : m.Sound) {t : Tree} (ht : Runnable t) : (m.queueFirst t).Sound := by
  rw [queueFirst_eq]
  refine ⟨?_, hm.store⟩
  intro s hs
  rcases List.mem_append.1 hs with hs | hs
  · exact ht.statements s hs
  · exact hm.queue s hs

/-- A statement was done: the machine is sound, and a value that ends the program is one. -/
def Done (x : Result × Machine) : Prop :=
  (∀ v, x.1 = .returned v → Value v) ∧ x.2.Sound

theorem Done.nothing {m : Machine} (hm : m.Sound) : Done (nothing, m) :=
  ⟨nofun, hm⟩

theorem jump_safe {program : List Tree} (hp : ∀ t ∈ program, Runnable t) {label : Tree} (hl : Numeral label)
    {m : Machine} (hm : m.Sound) : Safe Done (m.jump (.list program) label) := by
  rw [jump_list]
  split
  case h_1 =>
    have hv : Value label := by cases hl <;> constructor
    exact (show?_safe hv).bind fun s _ => rfl
  case h_2 own around hv => exact Done.nothing ⟨own_passingAmong Runnable.inherited hv hp own rfl, hm.store⟩
  case h_3 => rfl

theorem perform_expression {env : Setting} {m : Machine} (hm : m.Sound) {e : Tree} (he : Expression e) :
    Safe Done (m.perform env e) := by
  have hv := eval_safe hm.store he
  have main : Safe Done (do return (.value (← e.eval m.store), m)) := hv.bind fun v _ => ⟨nofun, hm⟩
  cases he with
  | number h =>
    cases h with
    -- A fraction that stands alone is passed over; all other expressions are worked out.
    | whole n => exact main
    | real x => exact Done.nothing hm
  | _ => exact main

theorem perform_statement {env : Setting} {program : List Tree} (he : env.home = .list program)
    (hp : ∀ t ∈ program, Runnable t) {m : Machine} (hm : m.Sound) {s : Tree} (hs : Statement s) :
    Safe Done (m.perform env s) := by
  cases hs with
  | assign x h =>
    apply (eval_safe hm.store h).bind
    intro v hv
    exact Done.nothing ⟨hm.queue, hm.store.set x hv⟩
  | when ht hb =>
    apply (test_safe hm.store ht).bind
    intro b _
    split
    · exact Done.nothing (hm.queueFirst hb.runnable)
    · exact Done.nothing hm
  | choose ht hb ho =>
    apply (test_safe hm.store ht).bind
    intro b _
    split
    · exact Done.nothing (hm.queueFirst hb.runnable)
    · split
      · exact Done.nothing (hm.queueFirst ho.runnable)
      · exact Done.nothing hm
  | give h =>
    apply (eval_safe hm.store h).bind
    intro v hv
    refine ⟨?_, hm⟩
    rintro _ ⟨⟩
    exact hv
  | print h =>
    have hn : ∀ e, Expression e → e ≠ .none := by
      rintro e he rfl
      cases he with
      | number h => cases h
    rw [perform_print env m (hn _ h)]
    apply (eval_safe hm.store h).bind
    intro v hv
    apply (show?_safe hv).bind
    intro t _
    split
    · exact ⟨nofun, hm⟩
    · exact Done.nothing ⟨hm.queue, hm.store⟩
  | printEmpty => exact ⟨nofun, hm.queue, hm.store⟩
  | jump hl =>
    rw [perform, he]
    exact jump_safe hp hl hm
  | mark => exact Done.nothing hm

theorem perform_safe {env : Setting} {program : List Tree} (he : env.home = .list program)
    (hp : ∀ t ∈ program, Runnable t) {m : Machine} (hm : m.Sound) {t : Tree} (ht : Runnable t) :
    Safe Done (m.perform env t) := by
  cases ht with
  | statement h => exact perform_statement he hp hm h
  | expression h => exact perform_expression hm h
  | lineEnds s => exact ⟨nofun, hm⟩
  | list h => exact Done.nothing (hm.queueFirst (.list h))

theorem note_safe {r : Result} {m : Machine} (h : Done (r, m)) : Safe Sound (m.note r) := by
  cases r with
  | returned v => exact (show?_safe (h.1 v rfl)).bind fun s _ => ⟨nofun, h.2.store⟩
  | value t => cases t <;> exact ⟨h.2.queue, h.2.store⟩

/-- A step of a sound machine leaves it sound, or fails with a fault of running programs. -/
theorem step_safe {env : Setting} {program : List Tree} (he : env.home = .list program)
    (hp : ∀ t ∈ program, Runnable t) {m : Machine} (hm : m.Sound) :
    (∀ m', m.step env = .running m' → m'.Sound) ∧ ∀ f, m.step env = .failed f → f.ofRun := by
  cases hq : m.queue with
  | nil =>
    rw [step_of_queue hq]
    constructor <;> intro _ h <;> cases h
  | cons s rest =>
    have hs : ∀ t ∈ s :: rest, Runnable t := hq ▸ hm.queue
    have hr : Sound { m with queue := rest } := ⟨fun t ht => hs t (List.mem_cons_of_mem s ht), hm.store⟩
    have h : Safe Sound (effect env { m with queue := rest } s) :=
      (perform_safe he hp hr (hs s List.mem_cons_self)).bind fun x hx => note_safe hx
    rw [step_eq hq]
    cases hx : effect env { m with queue := rest } s with
    | ok m₁ =>
      rw [hx] at h
      constructor <;> intro _ e <;> cases e
      exact h
    | error f₁ =>
      rw [hx] at h
      constructor <;> intro _ e <;> cases e
      exact h

/-- However many steps a sound machine runs, it stays sound, and what it fails with is a fault of running
programs. -/
theorem run_safe {env : Setting} {program : List Tree} (he : env.home = .list program)
    (hp : ∀ t ∈ program, Runnable t) {m : Machine} (hm : m.Sound) (n : Nat) :
    (m.run env n).1.Sound ∧ ∀ f, (m.run env n).2 = .failed f → f.ofRun := by
  obtain ⟨hs, hf⟩ := run_keeps (fun m m' hm h => (step_safe he hp hm).1 m' h) n m hm
  refine ⟨hs, ?_⟩
  intro f h
  exact (step_safe he hp hs).2 f (hf f h)

end Machine

namespace Tree

/-- Nothing is divided by what is equal to zero. -/
theorem divide_zero (a : Tree) {b : Tree} {n : Num} (hb : b.num? = some n) (hn : n.compare (.int 0) = some .eq) :
    a.divide b = .error .divisionByZero := by
  have hs : same b (.int 0) = sameNumber b (.int 0) := by cases b <;> rfl
  have h0 : sameNumber b (.int 0) = true := by
    unfold sameNumber
    rw [hb]
    simp [num?, hn]
  rw [divide, if_pos (hs.trans h0)]

end Tree

namespace Session

/-- A program that was read keeps the values of variables what they are, numbers, truth values and string
literals, after any number of steps. If it fails, then for one of the reasons that a running program can have.
No quotient by zero is worked out on the way. -/
theorem evaluate_safe (source : String) (program : List Tree) (hp : readProgram source = .ok program)
    (s : Session) (hc : s.context = []) (hs : s.store.Sound) (capture : Bool) (fuel : Nat) :
    (s.evaluate fuel capture (.list program)).1.store.Sound ∧
      (∀ f, (s.evaluate fuel capture (.list program)).2.2 = .failed f → f.ofRun) ∧
      ∀ (a b : Tree) (n : Num), b.num? = some n → n.compare (.int 0) = some .eq →
        a.divide b = .error .divisionByZero := by
  have hr : ∀ t ∈ program, t.Runnable := fun t ht => (readProgram_shaped hp t ht).runnable
  have hm : (Machine.load (.list program) s.store).Sound := ⟨hr, hs⟩
  obtain ⟨h1, h2⟩ := Machine.run_safe (settingOf_home hc capture (.list program)) hr hm fuel
  rw [evaluate_eq fuel capture (.list program) s rfl]
  refine ⟨h1.store, ?_, fun a b n => Tree.divide_zero a⟩
  intro f hf
  apply h2
  unfold outcomeOf at hf
  split at hf
  case h_2 g hg => cases hf; exact hg
  all_goals cases hf

/-- A program that doubles a text over and over. -/
def doubling : List Tree :=
  [.mark (.int 1), .assign "s" (.operation "+" [.name "s", .name "s"]), .jump (.int 1)]

/-- A session in which a variable has a text with a quote in it. -/
def quoteInside : Session :=
  { fresh with store := Store.empty.set "s" (.text "\"a\\\"\"") }

theorem evaluate_safe_doubling :
    readProgram "@1\nlet s be s + s\ngoto instruction 1" = .ok doubling ∧ quoteInside.store.Sound ∧
      (quoteInside.evaluate 100 false (.list doubling)).1.store.Sound := by
  have hp : readProgram "@1\nlet s be s + s\ngoto instruction 1" = .ok doubling := by cbv
  have hl : IsLiteral "\"a\\\"\"" :=
    ⟨['a', '\\', '"'], .plain (by decide) (by decide) (by decide) (.escaped (by decide) .nil), rfl⟩
  have hs : quoteInside.store.Sound := Store.Sound.set (by simp [Store.Sound, Store.empty]) "s" (.text hl)
  exact ⟨hp, hs, (evaluate_safe _ _ hp quoteInside rfl hs false 100).1⟩

end Session

end Pseudocode
