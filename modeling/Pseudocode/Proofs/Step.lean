import Pseudocode.Session.Basic
/-!
# Steps and runs

What one step of a machine is, in terms of the statement in front of its queue, and what follows for whole
runs: whatever every step keeps holds when the run stops (`run_keeps`).
-/

namespace Pseudocode

section

variable {ε α β : Type} {x : Except ε α} {f : α → Except ε β}

theorem bind_eq_ok {b : β} (h : x >>= f = .ok b) : ∃ a, x = .ok a ∧ f a = .ok b := by
  cases x with
  | error e => cases h
  | ok a => exact ⟨a, rfl, h⟩

theorem ok_bind (a : α) : (Except.ok a : Except ε α) >>= f = f a := rfl

end

/-- A list as its items, and any other tree as the only one. -/
def Tree.statements : Tree → List Tree
  | .list items => items
  | t => [t]

namespace Machine

theorem queueFirst_eq (m : Machine) (t : Tree) : m.queueFirst t = { m with queue := t.statements ++ m.queue } := by
  cases t <;> rfl

theorem load_queue (program : Tree) (σ : Store) : (load program σ).queue = program.statements := by
  cases program <;> rfl

theorem perform_print (env : Setting) (m : Machine) {e : Tree} (h : e ≠ .none) :
    m.perform env (.print e) = do
      let s ← (← e.eval m.store).show?
      if env.handBack then return (.value (.text (s ++ "\n")), m)
      else return (nothing, { m with output := m.output ++ s ++ "\n" }) := by
  cases e <;> first | rfl | exact absurd rfl h

/-- The effect of a statement whose result is put down. -/
def effect (env : Setting) (m : Machine) (s : Tree) : Except Fault Machine :=
  m.perform env s >>= fun (r, m) => m.note r

theorem step_eq {env : Setting} {m : Machine} {s : Tree} {rest : List Tree} (hq : m.queue = s :: rest) :
    m.step env = match ({ m with queue := rest } : Machine).effect env s with
      | .ok m => .running m
      | .error f => .failed f := by
  unfold step
  rw [hq]
  rfl

theorem step_of_queue {env : Setting} {m : Machine} (hq : m.queue = []) : m.step env = .finished := by
  unfold step
  rw [hq]

theorem step_of_perform {env : Setting} {m m' : Machine} {s : Tree} {rest : List Tree} {r : Result}
    (hq : m.queue = s :: rest) (hp : ({ m with queue := rest } : Machine).perform env s = .ok (r, m')) :
    m.step env = match m'.note r with
      | .ok m => .running m
      | .error f => .failed f := by
  rw [step_eq hq, effect, hp]
  rfl

theorem run_of_step {env : Setting} {m m' : Machine} (hs : m.step env = .running m') (n : Nat) :
    m.run env (1 + n) = m'.run env n := by
  rw [Nat.add_comm, run, hs]

/-- What every step keeps holds when a run stops. A run that fails stops in front of the statement that
fails. -/
theorem run_keeps {env : Setting} {I : Machine → Prop} (hs : ∀ m m', I m → m.step env = .running m' → I m')
    (n : Nat) (m : Machine) (hm : I m) :
    I (m.run env n).1 ∧ ∀ f, (m.run env n).2 = .failed f → (m.run env n).1.step env = .failed f := by
  induction n generalizing m with
  | zero =>
    refine ⟨hm, fun f h => ?_⟩
    rw [run] at h
    split at h <;> cases h
  | succ n ih =>
    rw [run]
    cases h : m.step env with
    | running m' => exact ih m' (hs m m' hm h)
    | finished => exact ⟨hm, fun f h => by cases h⟩
    | failed f => exact ⟨hm, fun g hg => by cases hg; exact h⟩

end Machine

namespace Session

/-- What stays the same while a session runs a program. -/
def settingOf (s : Session) (capture : Bool) (program : Tree) : Setting where
  home := (remember s.context program).headD program
  handBack := s.handBack || capture

/-- What a run comes to that stops with a machine. -/
def outcomeOf (capture : Bool) (m : Machine) : Machine.Ending → Outcome
  | .finished => .done (resultOf capture m)
  | .failed f => .failed f
  | .unfinished => .unfinished

theorem evaluate_eq (fuel : Nat) (capture : Bool) (program : Tree) (s : Session) {m : Machine}
    {ending : Machine.Ending} (h : (Machine.load program s.store).run (s.settingOf capture program) fuel = (m, ending)) :
    s.evaluate fuel capture program =
      ({ s with store := m.store, context := remember s.context program, handBack := s.handBack || capture },
        m.output, outcomeOf capture m ending) := by
  unfold settingOf at h
  unfold evaluate
  dsimp only
  rw [h]
  cases ending <;> rfl

theorem settingOf_home {s : Session} (hc : s.context = []) (capture : Bool) (program : Tree) :
    (s.settingOf capture program).home = program := by
  unfold settingOf
  rw [hc]
  rfl

end Session

end Pseudocode
