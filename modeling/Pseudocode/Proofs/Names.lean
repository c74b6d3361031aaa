import Mathlib
import Pseudocode.Proofs.Capture

/-!
# Variables that a program does not name

An expression looks at the variables that it names and at no others (`eval_congr`), and a statement sets a variable only
if it is assigned in it (`store_of_step`). All that a run queues are parts of the program, behind jumps as well. So two
runs of a program on variables that agree on the names of the program do the same, step by step (`run_alike`), and each
of them leaves alone what the program does not assign (`run_framed`). `run_relevant` puts this together.
-/

namespace Pseudocode

/-! ## Names -/

namespace Tree

mutual

/-- The names that are written in a program: those of the variables that it sets and those in its expressions. -/
def names : Tree → List String
  | name x => [x]
  | operation _ operands => namesAll operands
  | comparison _ operands => namesAll operands
  | list items => namesAll items
  | assign x value => x :: names value
  | when test body => names test ++ names body
  | choose test body other => names test ++ (names body ++ names other)
  | give value => names value
  | print value => names value
  | _ => []

def namesAll : List Tree → List String
  | [] => []
  | t :: rest => names t ++ namesAll rest

end

mutual

/-- The names of the variables that a program sets. -/
def targets : Tree → List String
  | list items => targetsAll items
  | assign x _ => [x]
  | when _ body => targets body
  | choose _ body other => targets body ++ targets other
  | _ => []

def targetsAll : List Tree → List String
  | [] => []
  | t :: rest => targets t ++ targetsAll rest

end

theorem mem_namesAll {ts : List Tree} {x : String} : x ∈ namesAll ts ↔ ∃ t ∈ ts, x ∈ names t := by
  induction ts with
  | nil => simp [namesAll]
  | cons t rest ih => simp [namesAll, ih]

theorem mem_targetsAll {ts : List Tree} {x : String} : x ∈ targetsAll ts ↔ ∃ t ∈ ts, x ∈ targets t := by
  induction ts with
  | nil => simp [targetsAll]
  | cons t rest ih => simp [targetsAll, ih]

/-- The parts of a program name nothing that the program does not name. -/
theorem names_inherited (X : List String) : Inherited fun t => t.names ⊆ X where
  items h t ht x hx := h (mem_namesAll.2 ⟨t, ht, hx⟩)
  body h x hx := h (by simp [names, hx])
  chosen h x hx := h (by simp [names, hx])
  other h x hx := h (by simp [names, hx])

theorem targets_inherited (X : List String) : Inherited fun t => t.targets ⊆ X where
  items h t ht x hx := h (mem_targetsAll.2 ⟨t, ht, hx⟩)
  body h x hx := h (by simpa [targets] using hx)
  chosen h x hx := h (by simp [targets, hx])
  other h x hx := h (by simp [targets, hx])

end Tree

/-- Stores that have the same values for some names. -/
def Store.AgreeOn (X : List String) (σ σ' : Store) : Prop :=
  ∀ x ∈ X, σ'.get? x = σ.get? x

namespace Store.AgreeOn

variable {X Y : List String} {σ σ' : Store}

theorem mono (h : AgreeOn Y σ σ') (hX : X ⊆ Y) : AgreeOn X σ σ' :=
  fun x hx => h x (hX hx)

theorem set (h : AgreeOn X σ σ') (x : String) (v : Tree) : AgreeOn X (σ.set x v) (σ'.set x v) := by
  intro y hy
  rw [get?_set, get?_set, h y hy]

end Store.AgreeOn

/-! ## Expressions -/

namespace Tree

variable {σ σ' : Store}

mutual

/-- The value of an expression depends only on the variables that it names. -/
theorem eval_congr (t : Tree) (h : σ.AgreeOn t.names σ') : t.eval σ' = t.eval σ := by
  cases t with
  | name x => rw [eval, eval, h x (by simp [names])]
  | operation op operands =>
    rw [names] at h
    rw [eval, eval, evalAll_congr operands h]
  | comparison op operands =>
    rw [names] at h
    rw [eval, eval, evalAll_congr operands h]
  | _ => simp only [eval]

theorem evalAll_congr (ts : List Tree) (h : σ.AgreeOn (namesAll ts) σ') : evalAll σ' ts = evalAll σ ts := by
  cases ts with
  | nil => rfl
  | cons t rest =>
    rw [namesAll] at h
    rw [evalAll, evalAll, eval_congr t (h.mono (List.subset_append_left _ _)),
      evalAll_congr rest (h.mono (List.subset_append_right _ _))]

end

theorem test_congr (t : Tree) (h : σ.AgreeOn t.names σ') : t.test σ' = t.test σ := by
  cases t with
  | operation op operands =>
    rw [names] at h
    rw [test, test, evalAll_congr operands h]
  | comparison op operands =>
    rw [names] at h
    rw [test, test, evalAll_congr operands h]
  | _ => simp only [test]

end Tree

/-! ## Two runs -/

namespace Machine

open Pseudocode.Tree

/-- Machines that differ at most in variables with other names than the given ones. -/
structure Alike (X : List String) (m m' : Machine) : Prop where
  queue : m'.queue = m.queue
  output : m'.output = m.output
  captured : m'.captured = m.captured
  result : m'.result = m.result
  store : m.store.AgreeOn X m'.store

section

variable {X : List String} {m m' : Machine}

theorem Alike.set (h : Alike X m m') (x : String) (v : Tree) :
    Alike X { m with store := m.store.set x v } { m' with store := m'.store.set x v } :=
  ⟨h.queue, h.output, h.captured, h.result, h.store.set x v⟩

theorem Alike.requeue (h : Alike X m m') (queue : List Tree) : Alike X { m with queue } { m' with queue } :=
  ⟨rfl, h.output, h.captured, h.result, h.store⟩

theorem Alike.queueFirst (h : Alike X m m') (t : Tree) : Alike X (m.queueFirst t) (m'.queueFirst t) := by
  rw [queueFirst_eq, queueFirst_eq]
  exact ⟨congrArg (t.statements ++ ·) h.queue, h.output, h.captured, h.result, h.store⟩

theorem Alike.print (h : Alike X m m') (s : String) :
    Alike X { m with output := m.output ++ s } { m' with output := m'.output ++ s } :=
  ⟨h.queue, congrArg (· ++ s) h.output, h.captured, h.result, h.store⟩

theorem Alike.note (h : Alike X m m') (r : Result) : Agree (Alike X) (m.note r) (m'.note r) := by
  cases r with
  | returned v =>
    unfold Machine.note
    apply Agree.bind
    intro s _
    exact .ok ⟨rfl, h.output, congrArg (· ++ s) h.captured, rfl, h.store⟩
  | value v =>
    cases v with
    | text s => exact .ok ⟨h.queue, h.output, congrArg (· ++ s) h.captured, rfl, h.store⟩
    | _ => exact .ok ⟨h.queue, h.output, h.captured, rfl, h.store⟩

/-- A statement does the same to both machines if they agree on what it names. -/
theorem effect_alike (env : Setting) (h : Alike X m m') {t : Tree} (ht : t.names ⊆ X) :
    Agree (Alike X) (m.effect env t) (m'.effect env t) := by
  have hσ := h.store.mono ht
  -- The value of an expression is the same for both, and then it is enough to look at what is done with it.
  have hv : ∀ {e : Tree} {f g : Tree → Effect} {k : Result × Machine → Except Fault Machine}, e.names ⊆ t.names →
      (∀ v, Agree (Alike X) (f v >>= k) (g v >>= k)) →
      Agree (Alike X) ((e.eval m.store >>= f) >>= k) ((e.eval m'.store >>= g) >>= k) := by
    intro e f g k he hfg
    rw [eval_congr e (hσ.mono he), bind_assoc, bind_assoc]
    apply Agree.bind
    intro v _
    exact hfg v
  unfold effect
  cases t with
  | assign x e =>
    rw [perform, perform]
    refine hv (by simp [names]) fun v => ?_
    exact (h.set x v).note nothing
  | when test body =>
    rw [perform, perform, test_congr test (hσ.mono (by simp [names])), bind_assoc, bind_assoc]
    apply Agree.bind
    intro b _
    cases b with
    | true => exact (h.queueFirst body).note nothing
    | false => exact h.note nothing
  | choose test body other =>
    rw [perform, perform, test_congr test (hσ.mono (by simp [names])), bind_assoc, bind_assoc]
    apply Agree.bind
    intro b _
    cases b with
    | true => exact (h.queueFirst body).note nothing
    | false =>
      by_cases ho : other.isSomething
      · simp only [ho]
        exact (h.queueFirst other).note nothing
      · simp only [ho]
        exact h.note nothing
  | give e =>
    rw [perform, perform]
    refine hv (by simp [names]) fun v => ?_
    exact h.note (.returned v)
  | print e =>
    by_cases he : e = .none
    · subst he
      exact (h.print "\n").note (.value (.text "\n"))
    · rw [perform_print env m he, perform_print env m' he]
      refine hv (by simp [names]) fun v => ?_
      rw [bind_assoc, bind_assoc]
      apply Agree.bind
      intro s _
      split
      · exact h.note (.value (.text (s ++ "\n")))
      · have hp := h.print (s ++ "\n")
        rw [← String.append_assoc, ← String.append_assoc] at hp
        exact hp.note nothing
  | jump label =>
    rw [perform, perform]
    rcases jump_cases env.home label with ⟨f, hf⟩ | ⟨v, own, -, -, hj⟩
    · rw [hf, hf]
      exact .error f
    · rw [hj, hj]
      exact (h.requeue own).note nothing
  | mark | none | float | nan => exact h.note nothing
  | list items => exact (h.queueFirst (.list items)).note nothing
  | _ =>
    rw [perform, perform]
    refine hv (List.Subset.refl _) fun v => ?_
    exact h.note (.value v)
    all_goals simp

/-- However many steps they run, both machines are at the same point and come to the same end. -/
theorem run_alike {env : Setting} (hh : env.home.names ⊆ X) (n : Nat) (h : Alike X m m')
    (hq : ∀ t ∈ m.queue, t.names ⊆ X) :
    Alike X (m.run env n).1 (m'.run env n).1 ∧ (m'.run env n).2 = (m.run env n).2 := by
  induction n generalizing m m' with
  | zero =>
    rw [run, run, h.queue]
    exact ⟨h, rfl⟩
  | succ n ih =>
    cases hm : m.queue with
    | nil =>
      rw [run_of_queue hm, run_of_queue (h.queue.trans hm)]
      exact ⟨h, rfl⟩
    | cons t rest =>
      have ha := effect_alike env (h.requeue rest) (hq t (by simp [hm]))
      have hs := @step_eq env _ _ _ hm
      have hs' := @step_eq env _ _ _ (h.queue.trans hm)
      generalize effect env { m with queue := rest } t = x at ha hs
      generalize effect env { m' with queue := rest } t = y at ha hs'
      cases ha with
      | error f =>
        rw [run, run, hs, hs']
        exact ⟨h, rfl⟩
      | ok h₁ =>
        rw [run, run, hs, hs']
        exact ih h₁ ((goes_of_step hs).inherit (names_inherited X) hh hq)

end

/-! ## One run -/

theorem note_store {r : Result} {m m' : Machine} (h : m.note r = .ok m') : m'.store = m.store := by
  cases r with
  | returned v =>
    obtain ⟨s, -, h⟩ := bind_eq_ok h
    cases h
    rfl
  | value v =>
    obtain ⟨captured, hn⟩ := note_value v m
    cases hn.symm.trans h
    rfl

theorem queueFirst_store (m : Machine) (t : Tree) : (m.queueFirst t).store = m.store := by
  rw [queueFirst_eq]

theorem store_of_perform {env : Setting} {m m' : Machine} {t : Tree} {r : Result}
    (h : m.perform env t = .ok (r, m')) :
    m'.store = m.store ∨ ∃ x ∈ t.targets, ∃ v, m'.store = m.store.set x v := by
  unfold perform at h
  split at h
  case h_1 x e =>
    obtain ⟨v, -, h⟩ := bind_eq_ok h
    cases h
    exact .inr ⟨x, by simp [targets], v, rfl⟩
  case h_2 =>
    obtain ⟨b, -, h⟩ := bind_eq_ok h
    split at h <;> cases h
    · exact .inl (queueFirst_store _ _)
    · exact .inl rfl
  case h_3 =>
    obtain ⟨b, -, h⟩ := bind_eq_ok h
    split at h
    · cases h
      exact .inl (queueFirst_store _ _)
    · split at h <;> cases h
      · exact .inl (queueFirst_store _ _)
      · exact .inl rfl
  case h_6 =>
    obtain ⟨v, -, h⟩ := bind_eq_ok h
    obtain ⟨s, -, h⟩ := bind_eq_ok h
    split at h <;> cases h <;> exact .inl rfl
  case h_7 label =>
    rcases jump_cases env.home label with ⟨f, hf⟩ | ⟨v, own, -, -, hj⟩
    · cases (hf m).symm.trans h
    · cases (hj m).symm.trans h
      exact .inl rfl
  case h_9 =>
    cases h
    exact .inl (queueFirst_store _ _)
  case h_4 | h_13 =>
    obtain ⟨v, -, h⟩ := bind_eq_ok h
    cases h
    exact .inl rfl
  all_goals cases h; exact .inl rfl

/-- A step sets no variable, or one that its statement assigns. -/
theorem store_of_step {env : Setting} {m m' : Machine} (h : m.step env = .running m') :
    m'.store = m.store ∨ ∃ t ∈ m.queue, ∃ x ∈ t.targets, ∃ v, m'.store = m.store.set x v := by
  cases hq : m.queue with
  | nil =>
    rw [step_of_queue hq] at h
    cases h
  | cons t rest =>
    rw [step_eq hq] at h
    split at h <;> cases h
    case h_1 he =>
      obtain ⟨⟨r, m₁⟩, hp, hn⟩ := bind_eq_ok he
      rw [note_store hn]
      rcases store_of_perform hp with hs | ⟨x, hx, v, hs⟩
      · exact .inl hs
      · exact .inr ⟨t, by simp, x, hx, v, hs⟩

/-- What has become of variables: those with other names than the given ones have the values that they had, and none of
them is gone. -/
structure Framed (X : List String) (σ σ' : Store) : Prop where
  same : ∀ x, x ∉ X → σ'.get? x = σ.get? x
  there : ∀ x, (σ.get? x).isSome → (σ'.get? x).isSome

theorem Framed.set {X : List String} {σ σ' : Store} (h : Framed X σ σ') {x : String} (hx : x ∈ X) (v : Tree) :
    Framed X σ (σ'.set x v) := by
  constructor
  · intro y hy
    have hne : x ≠ y := by
      rintro rfl
      exact hy hx
    rw [Store.get?_set, if_neg hne, h.same y hy]
  · intro y hy
    rw [Store.get?_set]
    split
    · rfl
    · exact h.there y hy

/-- A run changes no variable but those that the program assigns, and removes none. -/
theorem run_framed {env : Setting} {X : List String} (hh : env.home.targets ⊆ X) (n : Nat) {m : Machine}
    (hq : ∀ t ∈ m.queue, t.targets ⊆ X) : Framed X m.store (m.run env n).1.store := by
  have hk := @run_keeps env (fun m' => (∀ t ∈ m'.queue, t.targets ⊆ X) ∧ Framed X m.store m'.store) ?_ n m
    ⟨hq, fun _ _ => rfl, fun _ h => h⟩
  · exact hk.1.2
  · rintro m₁ m₂ ⟨hq₁, hf⟩ hs
    refine ⟨(goes_of_step hs).inherit (targets_inherited X) hh hq₁, ?_⟩
    rcases store_of_step hs with he | ⟨t, ht, x, hx, v, he⟩
    · rwa [he]
    · rw [he]
      exact hf.set (hq₁ t ht hx) v

end Machine

namespace Session

open Machine

theorem outcomeOf_alike {X : List String} {m m' : Machine} (h : Alike X m m') (capture : Bool) (ending : Ending) :
    outcomeOf capture m' ending = outcomeOf capture m ending := by
  cases ending with
  | finished => simp only [outcomeOf, resultOf, h.captured, h.result]
  | failed f => rfl
  | unfinished => rfl

/-- Two runs of a program, on variables that agree on the names of the program, are at the same point after any number
of steps, have printed the same and come to the same end, and the variables still agree. In both of them each variable
that the program does not assign has the value that it had, and no variable is gone. -/
theorem run_relevant (program : Tree) (s : Session) (hc : s.context = []) (capture : Bool) (σ σ' : Store)
    (hσ : ∀ x ∈ program.names, σ'.get? x = σ.get? x) (n : Nat) :
    let m := (load program σ).run (s.settingOf capture program) n
    let m' := (load program σ').run (s.settingOf capture program) n
    m'.1.queue = m.1.queue ∧ m'.1.output = m.1.output ∧ m'.2 = m.2 ∧
      (({ s with store := σ' } : Session).evaluate n capture program).2 =
        (({ s with store := σ } : Session).evaluate n capture program).2 ∧
      (∀ x ∈ program.names, m'.1.store.get? x = m.1.store.get? x) ∧
      (∀ x, x ∉ program.targets → m.1.store.get? x = σ.get? x ∧ m'.1.store.get? x = σ'.get? x) ∧
      ∀ x, ((σ.get? x).isSome → (m.1.store.get? x).isSome) ∧ ((σ'.get? x).isSome → (m'.1.store.get? x).isSome) := by
  intro m m'
  have hh : (s.settingOf capture program).home = program := settingOf_home hc capture program
  have hn : ∀ t ∈ (load program σ).queue, t.names ⊆ program.names := by
    rw [load_queue]
    exact (Tree.names_inherited program.names).statements (List.Subset.refl _)
  have ht : ∀ σ t, t ∈ (load program σ).queue → t.targets ⊆ program.targets := by
    intro σ
    rw [load_queue]
    exact (Tree.targets_inherited program.targets).statements (List.Subset.refl _)
  have hl : Alike program.names (load program σ) (load program σ') := ⟨rfl, rfl, rfl, rfl, hσ⟩
  have hs : (s.settingOf capture program).home.names ⊆ program.names := by
    rw [hh]
    exact List.Subset.refl _
  obtain ⟨ha, he⟩ := run_alike hs n hl hn
  have hf : Framed program.targets σ m.1.store := run_framed (by rw [hh]; exact List.Subset.refl _) n (ht σ)
  have hf' : Framed program.targets σ' m'.1.store := run_framed (by rw [hh]; exact List.Subset.refl _) n (ht σ')
  refine ⟨ha.queue, ha.output, he, ?_, ha.store, fun x hx => ⟨hf.same x hx, hf'.same x hx⟩,
    fun x => ⟨hf.there x, hf'.there x⟩⟩
  rw [@evaluate_eq n capture program { s with store := σ } m.1 m.2 rfl,
    @evaluate_eq n capture program { s with store := σ' } m'.1 m'.2 rfl, he]
  exact Prod.ext ha.output (outcomeOf_alike ha capture m.2)

/-- A program that counts in a loop, prints whether it has counted right and then asks for a variable that is nowhere
set. -/
def counting : Tree :=
  .list [.mark (.int 1), .assign "n" (.operation "+" [.name "n", .int 1]),
    .when (.comparison "<" [.name "n", .int 3]) (.jump (.int 1)), .print (.comparison "==" [.name "n", .int 3]),
    .give (.name "lost")]

def counter : Store :=
  ⟨[("n", .int 0), ("spare", .bool true)]⟩

def otherCounter : Store :=
  ⟨[("spare", .text "\"a\""), ("n", .int 0), ("more", .int 7)]⟩

theorem run_relevant_counting :
    fresh.context = [] ∧ (∀ x ∈ counting.names, otherCounter.get? x = counter.get? x) ∧
      (({ fresh with store := counter } : Session).evaluate 12 false counting).2 =
        ("True\n", .failed (.undefined "lost")) ∧
      (({ fresh with store := otherCounter } : Session).evaluate 12 false counting).2 =
        ("True\n", .failed (.undefined "lost")) := by
  have hσ : ∀ x ∈ counting.names, otherCounter.get? x = counter.get? x := by
    simp [counting, Tree.names, Tree.namesAll, Store.get?, Store.lookUp, counter, otherCounter]
  have he : (({ fresh with store := counter } : Session).evaluate 12 false counting).2 =
      ("True\n", .failed (.undefined "lost")) := by cbv
  obtain ⟨-, -, -, h, -⟩ := run_relevant counting fresh rfl false counter otherCounter hσ 12
  exact ⟨rfl, hσ, he, h.trans he⟩

end Session

end Pseudocode
