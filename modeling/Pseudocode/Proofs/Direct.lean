import Mathlib
import Pseudocode.Proofs.Step
/-!
# Running programs without jumps, directly

A program without jumps can be run by recursion on its tree: a list is done item by item, and a conditional
statement does the part that it chooses. `exec` does this. It keeps no queue and knows nothing of the statements
that follow.

A machine that has the statements of such a tree in front of its queue comes to the same as `exec` within as
many steps as the tree has places for statements, and then has left what was behind them (`realizes_exec`).
-/

namespace Pseudocode

/-- What a program works on: its variables, and what it has printed. -/
structure Scene where
  store : Store
  output : String

/-- How the execution of a statement ends. -/
inductive Flow where
  /-- The next statement can be done. -/
  | next (st : Scene) (r : Result)
  /-- The program is over and returns a value. -/
  | stopped (st : Scene) (v : Tree)
  | failed (st : Scene) (f : Fault)

namespace Flow

/-- The flow of a computation that may fail. -/
def of {α : Type} (st : Scene) (x : Except Fault α) (k : α → Flow) : Flow :=
  match x with
  | .ok a => k a
  | .error f => .failed st f

/-- Goes on if the next statement can be done. -/
def andThen (flow : Flow) (k : Scene → Result → Flow) : Flow :=
  match flow with
  | .next st r => k st r
  | .stopped st v => .stopped st v
  | .failed st f => .failed st f

def scene : Flow → Scene
  | .next st _ | .stopped st _ | .failed st _ => st

/-- What the program comes to if this is the end of it. -/
def outcome : Flow → Outcome
  | .next _ r => .done r
  | .stopped _ v => .done (.returned v)
  | .failed _ f => .failed f

end Flow

namespace Tree

open Machine (nothing)

mutual

/-- Does a statement directly. Jumps are passed over. -/
def exec (st : Scene) : Tree → Flow
  | assign x e => .of st (e.eval st.store) fun v => .next { st with store := st.store.set x v } nothing
  | when test body => .of st (test.test st.store) fun b => if b then exec st body else .next st nothing
  | choose test body other =>
    -- What counts as nothing is no part to be done, even if it is a value with a result.
    .of st (test.test st.store) fun b =>
      if b then exec st body else if other.isSomething then exec st other else .next st nothing
  | give e => .of st (e.eval st.store) fun v => .of st v.show? fun _ => .stopped st v
  | print none => .next { st with output := st.output ++ "\n" } (.value (.text "\n"))
  | print e =>
    .of st (e.eval st.store) fun v =>
      .of st v.show? fun s => .next { st with output := st.output ++ s ++ "\n" } nothing
  | list items => execAll st nothing items
  | mark _ | jump _ | none | float _ | nan _ => .next st nothing
  | e => .of st (e.eval st.store) fun v => .next st (.value v)

/-- Does statements in order. The result is that of the last one. -/
def execAll (st : Scene) (r : Result) : List Tree → Flow
  | [] => .next st r
  | t :: rest => (exec st t).andThen fun st r => execAll st r rest

end

mutual

/-- The count of places for statements: the tree itself, the items of lists, and the parts of conditional
statements. -/
def positions : Tree → Nat
  | list items => 1 + positionsAll items
  | when _ body => 1 + positions body
  | choose _ body other => 1 + positions body + positions other
  | _ => 1

def positionsAll : List Tree → Nat
  | [] => 0
  | t :: rest => positions t + positionsAll rest

end

mutual

/-- None of the statements is a jump. -/
def jumpFree : Tree → Bool
  | jump _ => false
  | list items => allJumpFree items
  | when _ body => jumpFree body
  | choose _ body other => jumpFree body && jumpFree other
  | _ => true

def allJumpFree : List Tree → Bool
  | [] => true
  | t :: rest => jumpFree t && allJumpFree rest

end

theorem positionsAll_statements (t : Tree) : positionsAll t.statements ≤ t.positions := by
  cases t with
  | list items => rw [positions]; exact Nat.le_add_left _ _
  | _ => simp [statements, positionsAll]

end Tree

namespace Machine

open Pseudocode.Tree

/-- What a machine works on. -/
def scene (m : Machine) : Scene :=
  ⟨m.store, m.output⟩

/-- A machine comes to what a flow says within a number of steps: it has `rest` left if it can go on, and
nothing if the program is over. -/
def Realizes (env : Setting) (rest : List Tree) (bound : Nat) (m : Machine) : Flow → Prop
  | .next st r => ∃ k ≤ bound, ∃ m' : Machine, (∀ n, m.run env (k + n) = m'.run env n) ∧
      m'.queue = rest ∧ m'.scene = st ∧ m'.result = r
  | .stopped st v => ∃ k ≤ bound, ∃ m' : Machine, (∀ n, m.run env (k + n) = m'.run env n) ∧
      m'.queue = [] ∧ m'.scene = st ∧ m'.result = .returned v
  | .failed st f => ∃ k ≤ bound, ∃ m' : Machine, (∀ n, m.run env (k + n) = (m', .failed f)) ∧ m'.scene = st

section

variable {env : Setting} {rest : List Tree} {bound : Nat} {m : Machine} {flow : Flow}

theorem Realizes.mono (h : Realizes env rest bound m flow) {bound' : Nat} (hb : bound ≤ bound') :
    Realizes env rest bound' m flow := by
  cases flow <;> obtain ⟨k, hk, h⟩ := h <;> exact ⟨k, Nat.le_trans hk hb, h⟩

/-- Steps in front of what a machine comes to. -/
theorem Realizes.after {m' : Machine} {j : Nat} (hj : ∀ n, m.run env (j + n) = m'.run env n)
    (h : Realizes env rest bound m' flow) : Realizes env rest (j + bound) m flow := by
  have hr : ∀ k n, m.run env (j + k + n) = m'.run env (k + n) := fun k n => by rw [Nat.add_assoc, hj]
  cases flow <;> obtain ⟨k, hk, m₁, h, hm⟩ := h <;>
    exact ⟨j + k, Nat.add_le_add_left hk j, m₁, fun n => (hr k n).trans (h n), hm⟩

theorem Realizes.step {m' : Machine} (hs : m.step env = .running m') (h : Realizes env rest bound m' flow) :
    Realizes env rest (1 + bound) m flow :=
  h.after (run_of_step hs)

/-- What a machine comes to by statements one after the other. -/
theorem Realizes.andThen {rest' : List Tree} {bound' : Nat} {k : Scene → Result → Flow}
    (h : Realizes env rest bound m flow)
    (hk : ∀ (m' : Machine) st r, m'.queue = rest → m'.scene = st → m'.result = r →
      Realizes env rest' bound' m' (k st r)) :
    Realizes env rest' (bound + bound') m (flow.andThen k) := by
  cases flow with
  | next st r =>
    obtain ⟨j, hj, m', hr, hq, hs, hv⟩ := h
    exact ((hk m' st r hq hs hv).after hr).mono (Nat.add_le_add_right hj bound')
  | stopped st v =>
    obtain ⟨j, hj, h⟩ := h
    exact ⟨j, Nat.le_add_right_of_le hj, h⟩
  | failed st f =>
    obtain ⟨j, hj, h⟩ := h
    exact ⟨j, Nat.le_add_right_of_le hj, h⟩

variable {t : Tree}

/-- A statement without a result puts nothing down. -/
theorem step_of_nothing {m' : Machine} (hq : m.queue = t :: rest)
    (hp : ({ m with queue := rest } : Machine).perform env t = .ok (nothing, m')) :
    m.step env = .running { m' with result := nothing } :=
  step_of_perform hq hp

theorem note_value (v : Tree) (m : Machine) :
    ∃ captured, m.note (.value v) = .ok { m with captured, result := .value v } := by
  cases v <;> exact ⟨_, rfl⟩

/-- A statement that is done in one step. -/
theorem realizes_value {m' : Machine} {v : Tree} {st : Scene} (hq : m.queue = t :: rest)
    (hp : ({ m with queue := rest } : Machine).perform env t = .ok (.value v, m')) (hr : m'.queue = rest)
    (hm : m'.scene = st) : Realizes env rest 1 m (.next st (.value v)) := by
  obtain ⟨captured, hn⟩ := note_value v m'
  have hs : m.step env = .running { m' with captured, result := .value v } := by
    rw [step_of_perform hq hp, hn]
  exact ⟨1, Nat.le_refl 1, _, run_of_step hs, hr, hm, rfl⟩

/-- A statement that fails. -/
theorem realizes_failed {f : Fault} (hs : m.step env = .failed f) :
    Realizes env rest 1 m (.failed m.scene f) :=
  ⟨1, Nat.le_refl 1, m, fun n => by rw [Nat.add_comm, run, hs], rfl⟩

/-- A statement that ends the program. -/
theorem realizes_returned {v : Tree} (hq : m.queue = t :: rest)
    (hp : ({ m with queue := rest } : Machine).perform env t = .ok (.returned v, { m with queue := rest })) :
    Realizes env rest 1 m (.of m.scene v.show? fun _ => .stopped m.scene v) := by
  have hs := step_of_perform hq hp
  rw [note] at hs
  cases hv : v.show? with
  | error f =>
    rw [hv] at hs
    exact realizes_failed hs
  | ok s =>
    rw [hv] at hs
    exact ⟨1, Nat.le_refl 1, _, run_of_step hs, rfl, rfl, rfl⟩

/-- A statement that leaves a part of it to be done. -/
theorem Realizes.part {part : Tree} (hq : m.queue = t :: rest)
    (hp : ({ m with queue := rest } : Machine).perform env t =
      .ok (nothing, ({ m with queue := rest } : Machine).queueFirst part))
    (h : ∀ m' : Machine, m'.queue = part.statements ++ rest → (part.isList → m'.result = nothing) →
      Realizes env rest (positionsAll part.statements) m' (part.exec m'.scene)) :
    Realizes env rest (1 + positionsAll part.statements) m (part.exec m.scene) := by
  rw [queueFirst_eq] at hp
  exact Realizes.step (step_of_nothing hq hp) (h _ rfl fun _ => rfl)

/-- A statement that begins with a computation which may fail. -/
theorem realizes_of {α : Type} {x : Except Fault α} {g : α → Effect} {k : α → Flow} (hq : m.queue = t :: rest)
    (hp : ({ m with queue := rest } : Machine).perform env t = x >>= g) (hb : 1 ≤ bound)
    (hk : ∀ a, ({ m with queue := rest } : Machine).perform env t = g a → Realizes env rest bound m (k a)) :
    Realizes env rest bound m (.of m.scene x k) := by
  cases x with
  | ok a => exact hk a hp
  | error f =>
    refine (realizes_failed ?_).mono hb
    rw [step_eq hq, effect, hp]
    rfl

end

theorem exec_print (st : Scene) {e : Tree} (h : e ≠ .none) :
    exec st (.print e) = .of st (e.eval st.store) fun v =>
      .of st v.show? fun s => .next { st with output := st.output ++ s ++ "\n" } nothing := by
  cases e <;> first | rfl | exact absurd rfl h

mutual

/-- A machine with the statements of a tree in front comes to what doing them directly comes to. -/
theorem realizes_exec {env : Setting} (he : env.handBack = false) (t : Tree) (ht : t.jumpFree) (rest : List Tree)
    (m : Machine) (hq : m.queue = t.statements ++ rest) (hr : t.isList → m.result = nothing) :
    Realizes env rest (positionsAll t.statements) m (t.exec m.scene) := by
  -- The items of a list are in front already. If it has none, nothing sets the result, hence `hr`.
  cases t with
  | jump l => cases ht
  | list items =>
    rw [exec, ← hr rfl]
    exact realizes_execAll he items ht rest m hq
  | assign x e =>
    rw [exec]
    apply realizes_of hq rfl (Nat.le_refl 1)
    intro v hp
    exact realizes_value hq hp rfl rfl
  | when test body =>
    have hc : positionsAll (statements (.when test body)) = 1 + positions body := rfl
    have hb := positionsAll_statements body
    rw [exec, hc]
    apply realizes_of hq rfl (by omega)
    intro b hp
    cases b with
    | false => exact (realizes_value hq hp rfl rfl).mono (by omega)
    | true => exact (Realizes.part hq hp (realizes_exec he body ht rest)).mono (by omega)
  | choose test body other =>
    have hc : positionsAll (statements (.choose test body other)) = 1 + positions body + positions other := rfl
    have hb := positionsAll_statements body
    have ho := positionsAll_statements other
    rw [jumpFree, Bool.and_eq_true] at ht
    rw [exec, hc]
    apply realizes_of hq rfl (by omega)
    intro b hp
    cases b with
    | true => exact (Realizes.part hq hp (realizes_exec he body ht.1 rest)).mono (by omega)
    | false =>
      by_cases hn : other.isSomething
      · simp only [hn] at hp ⊢
        exact (Realizes.part hq hp (realizes_exec he other ht.2 rest)).mono (by omega)
      · simp only [hn] at hp ⊢
        exact (realizes_value hq hp rfl rfl).mono (by omega)
  | give e =>
    rw [exec]
    apply realizes_of hq rfl (Nat.le_refl 1)
    intro v hp
    exact realizes_returned hq hp
  | print e =>
    by_cases hn : e = .none
    · subst hn
      exact realizes_value hq rfl rfl rfl
    · rw [exec_print m.scene hn]
      have hp := perform_print env { m with queue := rest } hn
      apply realizes_of hq hp (Nat.le_refl 1)
      intro v hp
      apply realizes_of hq hp (Nat.le_refl 1)
      intro s hp
      rw [he] at hp
      exact realizes_value hq hp rfl rfl
  | mark _ | none | float _ | nan _ => exact realizes_value hq rfl rfl rfl
  | _ => exact realizes_of hq rfl (Nat.le_refl 1) fun v hp => realizes_value hq hp rfl rfl

theorem realizes_execAll {env : Setting} (he : env.handBack = false) (ts : List Tree) (ht : allJumpFree ts)
    (rest : List Tree) (m : Machine) (hq : m.queue = ts ++ rest) :
    Realizes env rest (positionsAll ts) m (execAll m.scene m.result ts) := by
  cases ts with
  | nil => exact ⟨0, Nat.le_refl 0, m, fun n => by rw [Nat.zero_add], hq, rfl, rfl⟩
  | cons t more =>
    rw [allJumpFree, Bool.and_eq_true] at ht
    have hf : Realizes env (more ++ rest) t.positions m (t.exec m.scene) := by
      cases t with
      -- A list among the items is put in front of the queue by a step of its own.
      | list items => exact Realizes.part hq rfl (realizes_exec he _ ht.1 _)
      | _ => exact realizes_exec he _ ht.1 _ m hq nofun
    rw [execAll, positionsAll]
    apply hf.andThen
    intro m' st r hq' hs hv
    rw [← hs, ← hv]
    exact realizes_execAll he more ht.2 rest m' hq'

end

theorem run_of_queue {env : Setting} {m : Machine} (hq : m.queue = []) (n : Nat) :
    m.run env n = (m, .finished) := by
  cases n with
  | zero => rw [run, hq]; rfl
  | succ n =>
    rw [run, step_of_queue hq]

/-- A run with nothing behind the statements at hand ends as their flow says. -/
theorem Realizes.run_eq {env : Setting} {bound : Nat} {m : Machine} {flow : Flow}
    (h : Realizes env [] bound m flow) {n : Nat} (hn : bound ≤ n) :
    ∃ m' ending, m.run env n = (m', ending) ∧ m'.scene = flow.scene ∧
      Session.outcomeOf false m' ending = flow.outcome := by
  cases flow with
  | next st r =>
    obtain ⟨k, hk, m', hr, hq, hs, hv⟩ := h
    obtain ⟨j, rfl⟩ := Nat.exists_eq_add_of_le (Nat.le_trans hk hn)
    refine ⟨m', .finished, (hr j).trans (run_of_queue hq j), hs, ?_⟩
    rw [← hv]
    rfl
  | stopped st v =>
    obtain ⟨k, hk, m', hr, hq, hs, hv⟩ := h
    obtain ⟨j, rfl⟩ := Nat.exists_eq_add_of_le (Nat.le_trans hk hn)
    refine ⟨m', .finished, (hr j).trans (run_of_queue hq j), hs, ?_⟩
    show Outcome.done m'.result = _
    rw [hv]
    rfl
  | failed st f =>
    obtain ⟨k, hk, m', hr, hs⟩ := h
    obtain ⟨j, rfl⟩ := Nat.exists_eq_add_of_le (Nat.le_trans hk hn)
    exact ⟨m', .failed f, hr j, hs, rfl⟩

end Machine

namespace Session

open Machine

/-- A session that does not hand back what is printed runs a program without jumps to its end in at most as many
steps as the program has places for statements, and then has the variables, the output, and the result or the
fault that doing the program directly gives. -/
theorem evaluate_eq_exec (program : Tree) (hj : program.jumpFree) (s : Session) (hb : s.handBack = false)
    (fuel : Nat) (hf : program.positions ≤ fuel) :
    (s.evaluate fuel false program).1.store = (program.exec ⟨s.store, ""⟩).scene.store ∧
      (s.evaluate fuel false program).2.1 = (program.exec ⟨s.store, ""⟩).scene.output ∧
      (s.evaluate fuel false program).2.2 = (program.exec ⟨s.store, ""⟩).outcome := by
  have he : (s.settingOf false program).handBack = false := by simp [settingOf, hb]
  have hq : (load program s.store).queue = program.statements ++ [] := by
    rw [load_queue, List.append_nil]
  have h := realizes_exec he program hj [] (load program s.store) hq fun _ => rfl
  have hn := Nat.le_trans (Tree.positionsAll_statements program) hf
  obtain ⟨m, ending, hr, hs, ho⟩ := h.run_eq hn
  rw [evaluate_eq fuel false program s hr]
  exact ⟨congrArg Scene.store hs, congrArg Scene.output hs, ho⟩

/-- A program that returns from within its conditional statements. -/
def nested : Tree :=
  let test : Tree := .comparison "==" [.name "x", .bool true]
  .list [.assign "x" (.bool false),
    .choose test (.print .none)
      (.list [.list [.assign "x" (.bool true)], .when test (.list [.print (.name "x"), .give (.name "x")]),
        .print .none]),
    .print .none]

theorem evaluate_eq_exec_nested :
    nested.jumpFree ∧ nested.positions = 13 ∧ (fresh.evaluate 13 false nested).2.1 = "True\n" ∧
      (fresh.evaluate 13 false nested).2.2 = .done (.returned (.bool true)) := by
  have hj : nested.jumpFree := by decide
  have hn : nested.positions = 13 := by decide
  have hx : nested.exec ⟨fresh.store, ""⟩ = .stopped ⟨⟨[("x", .bool true)]⟩, "True\n"⟩ (.bool true) := by cbv
  obtain ⟨-, ho, hr⟩ := evaluate_eq_exec nested hj fresh rfl 13 (Nat.le_of_eq hn)
  rw [hx] at ho hr
  exact ⟨hj, hn, ho, hr⟩

end Session

end Pseudocode
