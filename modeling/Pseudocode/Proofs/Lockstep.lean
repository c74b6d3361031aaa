import Pseudocode.Proofs.Capture

/-!
# Two machines that do the same statement

Two machines may differ in what they have printed, in whether they hand back what is printed, and in what is queued
behind the statement at hand. To compare what a statement does to both, it is enough to know what setting a variable,
queueing statements, printing and putting down a result do to them (`Lockstep`). Jumps and the end of a program are
left out here.
-/

namespace Pseudocode.Machine

open Pseudocode.Tree

/-! ## Statements done -/

/-- The statements that a run does in at most `n` steps, in order. One that fails is not done. -/
def performed (env : Setting) : Nat → Machine → List Tree
  | 0, _ => []
  | n + 1, m =>
    match m.step env with
    | .running m' => m.queue.take 1 ++ performed env n m'
    | _ => []

theorem performed_of_queue {env : Setting} {m : Machine} (hq : m.queue = []) (n : Nat) : m.performed env n = [] := by
  cases n with
  | zero => rfl
  | succ n => rw [performed, step_of_queue hq]

theorem effect_of_step {env : Setting} {m m' : Machine} (h : m.step env = .running m') :
    ∃ s rest, m.queue = s :: rest ∧ ({ m with queue := rest } : Machine).effect env s = .ok m' := by
  cases hq : m.queue with
  | nil =>
    rw [step_of_queue hq] at h
    cases h
  | cons s rest =>
    rw [step_eq hq] at h
    split at h <;> cases h
    exact ⟨s, rest, rfl, ‹_›⟩

theorem step_of_effect {env : Setting} {m m' : Machine} {s : Tree} {rest : List Tree} (hq : m.queue = s :: rest)
    (h : ({ m with queue := rest } : Machine).effect env s = .ok m') : m.step env = .running m' := by
  rw [step_eq hq, h]

theorem queue_of_finished {env : Setting} {m : Machine} (h : m.step env = .finished) : m.queue = [] := by
  cases hq : m.queue with
  | nil => rfl
  | cons s rest =>
    rw [step_eq hq] at h
    split at h <;> cases h

/-- A run to the end begins with a step. That is all, or the rest is a run to the end again. -/
theorem run_to_end {env : Setting} {m m₁ : Machine} {n : Nat} (hn : m.queue ≠ []) (hr : m.run env n = (m₁, .finished)) :
    ∃ k m₂, n = k + 1 ∧ m.step env = .running m₂ ∧
      (m₂.queue = [] ∧ m₁ = m₂ ∨ m₂.queue ≠ [] ∧ m₂.run env k = (m₁, .finished)) := by
  cases n with
  | zero =>
    rw [run, if_neg (by simpa using hn)] at hr
    cases hr
  | succ k =>
    cases hs : m.step env with
    | failed f =>
      rw [run, hs] at hr
      cases hr
    | finished => exact absurd (queue_of_finished hs) hn
    | running m₂ =>
      rw [Nat.add_comm, run_of_step hs] at hr
      refine ⟨k, m₂, rfl, rfl, ?_⟩
      by_cases hn₂ : m₂.queue = []
      · rw [run_of_queue hn₂] at hr
        cases hr
        exact .inl ⟨hn₂, rfl⟩
      · exact .inr ⟨hn₂, hr⟩

/-! ## Lockstep -/

/-- What printing a value comes to. -/
def say (env : Setting) (s : String) (m : Machine) : Except Fault Machine :=
  if env.handBack then m.note (.value (.text (s ++ "\n")))
  else ({ m with output := m.output ++ s ++ "\n" } : Machine).note nothing

/-- Machines that stand to each other as `L` says before a statement does its work stand to each other as `R` says
behind it. -/
structure Lockstep (env env' : Setting) (L : Machine → Machine → Prop) (R : Tree → Machine → Machine → Prop) :
    Prop where
  store {m m'} : L m m' → m'.store = m.store
  set {m m'} (σ : Store) : L m m' → L { m with store := σ } { m' with store := σ }
  queueFirst {m m'} (t : Tree) : L m m' → L (m.queueFirst t) (m'.queueFirst t)
  note {m m'} {t : Tree} (v : Tree) : t.kind ≠ .print → L m m' →
    Agree (R t) (m.note (.value v)) (m'.note (.value v))
  line {m m'} : L m m' → Agree (R (.print .none))
    (({ m with output := m.output ++ "\n" } : Machine).note (.value (.text "\n")))
    (({ m' with output := m'.output ++ "\n" } : Machine).note (.value (.text "\n")))
  say {m m'} {e : Tree} (s : String) : e ≠ .none → L m m' → Agree (R (.print e)) (say env s m) (say env' s m')

theorem effect_print (env : Setting) (m : Machine) {e : Tree} (h : e ≠ .none) :
    m.effect env (.print e) = e.eval m.store >>= fun v => v.show? >>= fun s => m.say env s := by
  rw [effect, perform_print env m h, bind_assoc]
  congr 1
  funext v
  rw [bind_assoc]
  congr 1
  funext s
  unfold say
  split <;> rfl

theorem effect_lockstep {env env' : Setting} {L : Machine → Machine → Prop} {R : Tree → Machine → Machine → Prop}
    (hl : Lockstep env env' L R) {m m' : Machine} (h : L m m') {t : Tree} (hj : t.kind ≠ .jump) (hg : t.kind ≠ .give) :
    Agree (R t) (m.effect env t) (m'.effect env' t) := by
  have hs := hl.store h
  by_cases hp : t.kind = .print
  · cases t with
    | print e =>
      by_cases he : e = .none
      · subst he
        exact hl.line h
      · rw [effect_print env m he, effect_print env' m' he, hs]
        apply Agree.bind
        intro v _
        apply Agree.bind
        intro s _
        exact hl.say s he h
    | _ => cases hp
  have hn : ∀ {a b : Machine}, L a b → Agree (R t) (a.note nothing) (b.note nothing) := hl.note .none hp
  cases t with
  | give | jump | print => contradiction
  | assign x e =>
    rw [effect, effect, perform, perform, hs, bind_assoc, bind_assoc]
    apply Agree.bind
    intro v _
    exact hn (hl.set _ h)
  | when test body =>
    rw [effect, effect, perform, perform, hs, bind_assoc, bind_assoc]
    apply Agree.bind
    intro b _
    cases b with
    | true => exact hn (hl.queueFirst body h)
    | false => exact hn h
  | choose test body other =>
    rw [effect, effect, perform, perform, hs, bind_assoc, bind_assoc]
    apply Agree.bind
    intro b _
    cases b with
    | true => exact hn (hl.queueFirst body h)
    | false =>
      by_cases ho : other.isSomething
      · simp only [ho]
        exact hn (hl.queueFirst other h)
      · simp only [ho]
        exact hn h
  | mark | none | float | nan => exact hn h
  | list items => exact hn (hl.queueFirst (.list items) h)
  -- What is left are expressions, which a list may hold at the place of a statement.
  | _ =>
    rw [effect, effect, perform, perform, hs, bind_assoc, bind_assoc]
    apply Agree.bind
    intro v _
    exact hl.note v hp h
    all_goals simp

end Pseudocode.Machine
