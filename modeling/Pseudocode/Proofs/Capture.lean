import Pseudocode.Proofs.Occurrence

/-!
# Capturing what a program prints

A run that captures hands printed texts back instead of printing them, and the machine puts them together. An empty
`print` does both, and a text that is a result for any other reason is captured as well. In a program of nothing
but statements there is no such reason, and a capturing run goes step by step with one that prints: `Mirrors` says
how the two stand to each other, every step keeps it (`step_mirrors`), and so does every run (`run_mirrors`).

`evaluate_capture` says what this means for a session: the same statements are done, with the same variables and
the same end, and what is captured is what would have been printed, followed by the value that the program returns.
-/

namespace Pseudocode

namespace Tree

mutual

/-- Statements and lists of them stand at all places for statements. A part of a conditional statement may be
missing. -/
def onlyStatements : Tree → Bool
  | list items => allStatements items
  | when _ body => onlyStatements body
  | choose _ body other => onlyStatements body && onlyStatements other
  | assign _ _ | give _ | print _ | jump _ | mark _ | none => true
  | _ => false

def allStatements : List Tree → Bool
  | [] => true
  | t :: rest => onlyStatements t && allStatements rest

end

theorem allStatements_iff {ts : List Tree} : allStatements ts ↔ ∀ t ∈ ts, onlyStatements t := by
  induction ts with
  | nil => simp [allStatements]
  | cons t rest ih => simp [allStatements, ih]

theorem Inherited.statements {I : Tree → Prop} (hI : Inherited I) {t : Tree} (h : I t) : ∀ s ∈ t.statements, I s := by
  cases t with
  | list items => exact hI.items h
  | _ => exact List.forall_mem_singleton.2 h

theorem onlyStatements_inherited : Inherited fun t => onlyStatements t where
  items := allStatements_iff.1
  body h := h
  chosen h := (Bool.and_eq_true_iff.1 h).1
  other h := (Bool.and_eq_true_iff.1 h).2

end Tree

namespace Machine

open Pseudocode.Tree

theorem Goes.inherit {I : Tree → Prop} (hI : Inherited I) {home : Tree} (hh : I home) {q q' : List Tree}
    (hg : Goes home q q') (hq : ∀ t ∈ q, I t) : ∀ t ∈ q', I t := by
  have hs : ∀ (c : Tree) (rest : List Tree), I c → (∀ t ∈ rest, I t) → ∀ t ∈ c.statements ++ rest, I t :=
    fun c rest hc hr => List.forall_mem_append.2 ⟨hI.statements hc, hr⟩
  cases hg with
  | passes hp =>
    cases hp with
    | done s rest => exact (List.forall_mem_cons.1 hq).2
    | items ts rest => exact hs (.list ts) rest (List.forall_mem_cons.1 hq).1 (List.forall_mem_cons.1 hq).2
    | body test body rest =>
      obtain ⟨h, hr⟩ := List.forall_mem_cons.1 hq
      exact hs body rest (hI.body h) hr
    | chosen test body other rest =>
      obtain ⟨h, hr⟩ := List.forall_mem_cons.1 hq
      exact hs body rest (hI.chosen h) hr
    | other test body other rest =>
      obtain ⟨h, hr⟩ := List.forall_mem_cons.1 hq
      exact hs other rest (hI.other h) hr
  | jumps rest hv ho => exact own_passing hI hv hh _ ho
  | stops => nofun

/-- The statements that a run begins to do in at most `n` steps, in order. -/
def begun (env : Setting) : Nat → Machine → List Tree
  | 0, _ => []
  | n + 1, m =>
    m.queue.take 1 ++
      match m.step env with
      | .running m => begun env n m
      | _ => []

/-- What is captured where `output` would have been printed, once a result is put down. -/
def Captures (output : String) : Result → String → Prop
  | .returned v, captured => ∃ s, v.show? = .ok s ∧ captured = output ++ s
  | .value _, captured => captured = output

/-- How a machine that prints and one that captures stand to each other. -/
structure Mirrors (d c : Machine) : Prop where
  queue : c.queue = d.queue
  store : c.store = d.store
  captured : Captures d.output d.result c.captured
  ended : ∀ v, d.result = .returned v → d.queue = []

/-- The two machines in the middle of a step, before a result is put down. -/
structure Level (d c : Machine) : Prop where
  queue : c.queue = d.queue
  store : c.store = d.store
  captured : c.captured = d.output

theorem Mirrors.level {d c : Machine} (h : Mirrors d c) {s : Tree} {rest : List Tree} (hq : d.queue = s :: rest) :
    Level { d with queue := rest } { c with queue := rest } := by
  refine ⟨rfl, h.store, ?_⟩
  have hc := h.captured
  cases hr : d.result with
  | value t => rw [hr] at hc; exact hc
  | returned v => rw [h.ended v hr] at hq; cases hq

theorem Level.queueFirst {d c : Machine} (h : Level d c) (t : Tree) : Level (d.queueFirst t) (c.queueFirst t) := by
  rw [queueFirst_eq, queueFirst_eq]
  exact ⟨congrArg (t.statements ++ ·) h.queue, h.store, h.captured⟩

/-- Both computations fail in the same way, or their values are related. -/
inductive Agree {α β : Type} (R : α → β → Prop) : Except Fault α → Except Fault β → Prop
  | ok {a : α} {b : β} (h : R a b) : Agree R (.ok a) (.ok b)
  | error (f : Fault) : Agree R (.error f) (.error f)

theorem Agree.bind {α β γ : Type} {R : β → γ → Prop} (x : Except Fault α) {f : α → Except Fault β}
    {g : α → Except Fault γ} (h : ∀ a, x = .ok a → Agree R (f a) (g a)) : Agree R (x >>= f) (x >>= g) := by
  cases x with
  | error e => exact .error e
  | ok a => exact h a rfl

theorem Level.nothing {d c : Machine} (h : Level d c) : Agree Mirrors (d.note nothing) (c.note nothing) :=
  .ok ⟨h.queue, h.store, h.captured, nofun⟩

theorem Level.returned {d c : Machine} (h : Level d c) (v : Tree) :
    Agree Mirrors (d.note (.returned v)) (c.note (.returned v)) := by
  unfold note
  apply Agree.bind
  intro s hs
  exact .ok ⟨rfl, h.store, ⟨s, hs, congrArg (· ++ s) h.captured⟩, fun _ _ => rfl⟩

/-- A statement has the same effect whether its text is printed or captured. -/
theorem effect_mirrors {env env' : Setting} (hh : env'.home = env.home) (he : env.handBack = false)
    (he' : env'.handBack = true) {d c : Machine} (h : Level d c) {t : Tree} (ht : t.onlyStatements) :
    Agree Mirrors (d.effect env t) (c.effect env' t) := by
  unfold effect
  cases t with
  | assign x e =>
    rw [perform, perform, h.store, bind_assoc, bind_assoc]
    apply Agree.bind
    intro v _
    exact Level.nothing ⟨h.queue, rfl, h.captured⟩
  | when test body =>
    rw [perform, perform, h.store, bind_assoc, bind_assoc]
    apply Agree.bind
    intro b _
    cases b with
    | true => exact (h.queueFirst body).nothing
    | false => exact h.nothing
  | choose test body other =>
    rw [perform, perform, h.store, bind_assoc, bind_assoc]
    apply Agree.bind
    intro b _
    cases b with
    | true => exact (h.queueFirst body).nothing
    | false =>
      by_cases ho : other.isSomething
      · simp only [ho]
        exact (h.queueFirst other).nothing
      · simp only [ho]
        exact h.nothing
  | give e =>
    rw [perform, perform, h.store, bind_assoc, bind_assoc]
    apply Agree.bind
    intro v _
    exact h.returned v
  | print e =>
    by_cases hn : e = .none
    · subst hn
      exact .ok ⟨h.queue, h.store, congrArg (· ++ "\n") h.captured, by simp⟩
    · rw [perform_print env d hn, perform_print env' c hn, h.store, he, he', bind_assoc, bind_assoc]
      apply Agree.bind
      intro v _
      rw [bind_assoc, bind_assoc]
      apply Agree.bind
      intro s _
      refine .ok ⟨h.queue, h.store, ?_, by simp [nothing]⟩
      show c.captured ++ (s ++ "\n") = d.output ++ s ++ "\n"
      rw [h.captured, String.append_assoc]
  | jump label =>
    rw [perform, perform, hh]
    rcases jump_cases env.home label with ⟨f, hf⟩ | ⟨v, own, -, -, hj⟩
    · rw [hf, hf]
      exact .error f
    · rw [hj, hj]
      exact Level.nothing ⟨rfl, h.store, h.captured⟩
  | mark | none => exact h.nothing
  | list items => exact (h.queueFirst (.list items)).nothing
  | _ => cases ht

/-- What a step comes to on both sides. -/
inductive StepsAlike : Stepped → Stepped → Prop
  | running {d c : Machine} (h : Mirrors d c) : StepsAlike (.running d) (.running c)
  | finished : StepsAlike .finished .finished
  | failed (f : Fault) : StepsAlike (.failed f) (.failed f)

section

variable {env env' : Setting} (hh : env'.home = env.home) (he : env.handBack = false) (he' : env'.handBack = true)

include hh he he'

theorem step_mirrors {d c : Machine} (h : Mirrors d c) (hq : ∀ t ∈ d.queue, t.onlyStatements) :
    StepsAlike (d.step env) (c.step env') := by
  cases hd : d.queue with
  | nil =>
    rw [step_of_queue hd, step_of_queue (h.queue.trans hd)]
    exact .finished
  | cons s rest =>
    rw [step_eq hd, step_eq (h.queue.trans hd)]
    have hs : s.onlyStatements := hq s (by simp [hd])
    have ha := effect_mirrors hh he he' (h.level hd) hs
    generalize effect env { d with queue := rest } s = x at ha ⊢
    generalize effect env' { c with queue := rest } s = y at ha ⊢
    cases ha with
    | ok hm => exact .running hm
    | error f => exact .failed f

/-- However many steps they run, a machine that prints and one that captures do the same statements and come to
the same end. -/
theorem run_mirrors (ho : env.home.onlyStatements) (n : Nat) {d c : Machine} (h : Mirrors d c)
    (hq : ∀ t ∈ d.queue, t.onlyStatements) :
    Mirrors (d.run env n).1 (c.run env' n).1 ∧ (c.run env' n).2 = (d.run env n).2 ∧
      c.begun env' n = d.begun env n := by
  induction n generalizing d c with
  | zero =>
    refine ⟨h, ?_, rfl⟩
    rw [run, run, h.queue]
  | succ n ih =>
    rw [run, run, begun, begun, h.queue]
    have hs := step_mirrors hh he he' h hq
    generalize hd : d.step env = x at hs ⊢
    generalize c.step env' = y at hs ⊢
    cases hs with
    | running hm =>
      obtain ⟨h1, h2, h3⟩ := ih hm ((goes_of_step hd).inherit onlyStatements_inherited ho hq)
      exact ⟨h1, h2, congrArg (d.queue.take 1 ++ ·) h3⟩
    | finished => exact ⟨h, rfl, rfl⟩
    | failed f => exact ⟨h, rfl, rfl⟩

end

end Machine

namespace Session

open Machine

/-- What a printing run with some output comes to, and then a capturing run of the same program. -/
inductive EndsAlike (output : String) : Outcome → Outcome → Prop
  | done {r : Result} {captured : String} (h : Captures output r captured) :
      EndsAlike output (.done r) (.done (.value (.text captured)))
  | failed (f : Fault) : EndsAlike output (.failed f) (.failed f)
  | unfinished : EndsAlike output .unfinished .unfinished

/-- A program of nothing but statements does the same statements whether a session prints what it prints or captures
it, and ends in the same way and with the same variables. What is captured is what would have been printed, and the
text of the value that the program returns if it returns one. -/
theorem evaluate_capture (program : Tree) (hp : program.onlyStatements) (s : Session) (hc : s.context = [])
    (hb : s.handBack = false) (fuel : Nat) :
    (load program s.store).begun (s.settingOf true program) fuel =
        (load program s.store).begun (s.settingOf false program) fuel ∧
      (s.evaluate fuel true program).1.store = (s.evaluate fuel false program).1.store ∧
      EndsAlike (s.evaluate fuel false program).2.1 (s.evaluate fuel false program).2.2
        (s.evaluate fuel true program).2.2 := by
  have hh : (s.settingOf true program).home = (s.settingOf false program).home := rfl
  have hd : (s.settingOf false program).handBack = false := by simp [settingOf, hb]
  have ht : (s.settingOf true program).handBack = true := by simp [settingOf]
  have ho : (s.settingOf false program).home.onlyStatements := by rwa [settingOf_home hc]
  have hq : ∀ t ∈ (load program s.store).queue, t.onlyStatements := by
    rw [load_queue]
    exact fun t h => Tree.onlyStatements_inherited.statements hp t h
  have hl : Mirrors (load program s.store) (load program s.store) := ⟨rfl, rfl, rfl, by simp [load]⟩
  obtain ⟨hm, hr, hs⟩ := run_mirrors hh hd ht ho fuel hl hq
  refine ⟨hs, ?_⟩
  rw [evaluate_eq fuel false program s rfl, evaluate_eq fuel true program s rfl, hr]
  refine ⟨hm.store, ?_⟩
  cases (run (s.settingOf false program) fuel (load program s.store)).2 with
  | finished => exact .done hm.captured
  | failed f => exact .failed f
  | unfinished => exact .unfinished

/-- A program that prints twice in a loop, each time with an empty line behind, and returns. -/
def echo : Tree :=
  .list [.assign "again" (.bool true), .mark (.int 1), .print (.text "\"a\""), .print .none,
    .when (.comparison "==" [.name "again", .bool true]) (.list [.assign "again" (.bool false), .jump (.int 1)]),
    .give (.name "again")]

theorem evaluate_capture_echo :
    echo.onlyStatements ∧ fresh.context = [] ∧ fresh.handBack = false ∧
      (fresh.evaluate 12 false echo).2.1 = "\"a\"\n\n\"a\"\n\n" ∧
      (fresh.evaluate 12 true echo).2.2 = .done (.value (.text "\"a\"\n\n\"a\"\n\nFalse")) := by
  have hp : echo.onlyStatements := by decide
  have ho : (fresh.evaluate 12 false echo).2.1 = "\"a\"\n\n\"a\"\n\n" := by cbv
  have hr : (fresh.evaluate 12 false echo).2.2 = .done (.returned (.bool false)) := by cbv
  obtain ⟨-, -, h⟩ := evaluate_capture echo hp fresh rfl rfl 12
  rw [ho, hr] at h
  generalize (fresh.evaluate 12 true echo).2.2 = outcome at h ⊢
  obtain ⟨t, ht, rfl⟩ | _ | _ := h
  have hf : Tree.show? (.bool false) = .ok "False" := by cbv
  cases hf.symm.trans ht
  exact ⟨hp, rfl, rfl, ho, rfl⟩

end Session

end Pseudocode
