import Mathlib
import Pseudocode.Proofs.Lockstep

/-!
# What an earlier capture does to later runs

A session that has once captured what a run printed goes on to hand printed values back, in all later runs. A machine
that hands back and one that prints still do the same statements on the same variables, whatever the program
(`run_beside`): a `print` with a value is all that tells them apart, and from the first one on less is printed.

The session knows nothing else of its past (`handBack_after`). So a later run that does not capture is the same as in a
session without captures, but for its output and result if it prints a value: `evaluate_after`.
-/

namespace Pseudocode

/-- Whether a statement prints a value. -/
def Tree.printsValue : Tree → Bool
  | .print .none => false
  | .print _ => true
  | _ => false

namespace Machine

open Pseudocode.Tree

/-! ## A machine that prints and one that hands back -/

/-- The machines differ in what they have printed at most, and `said` tells whether they do: the second one has printed
less then. -/
structure Similar (said : Bool) (d c : Machine) : Prop where
  queue : c.queue = d.queue
  store : c.store = d.store
  same : said = false → c.output = d.output
  less : said = true → c.output.length < d.output.length

/-- The machines differ in what they have printed and in their results at most. -/
structure Beside (said : Bool) (d c : Machine) : Prop extends Similar said d c where
  result : said = false → c.result = d.result

section

variable {said : Bool} {d c : Machine} {env env' : Setting}

theorem Similar.note (h : Similar said d c) (v : Tree) :
    Agree (Beside said) (d.note (.value v)) (c.note (.value v)) := by
  obtain ⟨captured, hd⟩ := note_value v d
  obtain ⟨captured', hc⟩ := note_value v c
  rw [hd, hc]
  exact .ok ⟨⟨h.queue, h.store, h.same, h.less⟩, fun _ => rfl⟩

theorem Similar.print (h : Similar said d c) (s : String) :
    Similar said { d with output := d.output ++ s } { c with output := c.output ++ s } := by
  refine ⟨h.queue, h.store, fun hs => congrArg (· ++ s) (h.same hs), fun hs => ?_⟩
  have hl := h.less hs
  simp only [String.length_append]
  omega

theorem Similar.queueFirst (h : Similar said d c) (t : Tree) : Similar said (d.queueFirst t) (c.queueFirst t) := by
  rw [queueFirst_eq, queueFirst_eq]
  exact ⟨congrArg (t.statements ++ ·) h.queue, h.store, h.same, h.less⟩

/-- A value is printed on the one side only. -/
theorem Similar.say (he : env.handBack = false) (he' : env'.handBack = true) (h : Similar said d c) (s : String) :
    Agree (Beside true) (say env s d) (say env' s c) := by
  have hl : c.output.length ≤ d.output.length := by
    cases said with
    | false => rw [h.same rfl]
    | true => exact Nat.le_of_lt (h.less rfl)
  rw [Machine.say, Machine.say, he, he', if_neg Bool.false_ne_true, if_pos rfl]
  refine .ok ⟨⟨h.queue, h.store, by simp, fun _ => ?_⟩, by simp⟩
  show c.output.length < (d.output ++ s ++ "\n").length
  have hn : "\n".length = 1 := rfl
  rw [String.length_append, String.length_append, hn]
  omega

theorem printsValue_kind {t : Tree} (h : t.kind ≠ .print) : t.printsValue = false := by
  cases t <;> first | rfl | exact absurd rfl h

theorem lockstep_beside (he : env.handBack = false) (he' : env'.handBack = true) (said : Bool) :
    Lockstep env env' (Similar said) fun t => Beside (said || t.printsValue) where
  store h := h.store
  set σ h := ⟨h.queue, rfl, h.same, h.less⟩
  queueFirst t h := h.queueFirst t
  note v ht h := by
    rw [printsValue_kind ht, Bool.or_false]
    exact h.note v
  line h := by
    rw [printsValue, Bool.or_false]
    exact (h.print "\n").note (.text "\n")
  say {_ _ e} s hn h := by
    have hp : printsValue (.print e) = true := by
      cases e <;> first | rfl | exact absurd rfl hn
    rw [hp, Bool.or_true]
    exact h.say he he' s

variable (hh : env'.home = env.home) (he : env.handBack = false) (he' : env'.handBack = true)

include hh he he'

theorem effect_beside (h : Similar said d c) (t : Tree) :
    Agree (Beside (said || t.printsValue)) (d.effect env t) (c.effect env' t) := by
  by_cases hj : t.kind = .jump
  · rw [printsValue_kind (by rw [hj]; decide), Bool.or_false]
    obtain ⟨label, rfl⟩ := eq_jump_of_kind hj
    rw [effect, effect, perform, perform, hh]
    rcases jump_cases env.home label with ⟨f, hf⟩ | ⟨v, own, -, -, hj⟩
    · rw [hf, hf]
      exact .error f
    · have hq : Similar said { d with queue := own } { c with queue := own } := ⟨rfl, h.store, h.same, h.less⟩
      rw [hj, hj]
      exact hq.note .none
  by_cases hg : t.kind = .give
  · rw [printsValue_kind (by rw [hg]; decide), Bool.or_false]
    cases t with
    | give e =>
      rw [effect, effect, perform, perform, h.store, bind_assoc, bind_assoc]
      apply Agree.bind
      intro v _
      show Agree _ (d.note (.returned v)) (c.note (.returned v))
      unfold note
      apply Agree.bind
      intro s _
      exact .ok ⟨⟨rfl, h.store, h.same, h.less⟩, fun _ => rfl⟩
    | _ => cases hg
  exact effect_lockstep (lockstep_beside he he' said) h hj hg

/-- However many steps they run, the machines do the same statements and come to the same end. They have printed
the same unless a value was to be printed. -/
theorem run_beside (n : Nat) (h : Beside said d c) :
    Beside (said || (d.performed env n).any printsValue) (d.run env n).1 (c.run env' n).1 ∧
      (c.run env' n).2 = (d.run env n).2 := by
  -- `said` is part of the induction: it becomes true with the first statement that prints a value.
  induction n generalizing d c said with
  | zero =>
    rw [run, run, performed, h.queue, List.any_nil, Bool.or_false]
    exact ⟨h, rfl⟩
  | succ n ih =>
    cases hq : d.queue with
    | nil =>
      rw [performed_of_queue hq, run_of_queue hq, run_of_queue (h.queue.trans hq), List.any_nil, Bool.or_false]
      exact ⟨h, rfl⟩
    | cons t rest =>
      have hl : Similar said { d with queue := rest } { c with queue := rest } := ⟨rfl, h.store, h.same, h.less⟩
      have ha := effect_beside hh he he' hl t
      rw [performed, run, run, step_eq hq, step_eq (h.queue.trans hq)]
      generalize effect env { d with queue := rest } t = x at ha ⊢
      generalize effect env' { c with queue := rest } t = y at ha ⊢
      cases ha with
      | error f =>
        rw [List.any_nil, Bool.or_false]
        exact ⟨h, rfl⟩
      | ok h₁ =>
        rw [hq, List.any_append]
        simpa [Bool.or_assoc] using ih h₁

end

end Machine

namespace Session

open Machine

/-! ## The past of a session -/

/-- What can be asked of a session: to run a program, or to read a source text and run it. -/
inductive Call where
  | evaluate (fuel : Nat) (capture : Bool) (program : Tree)
  | process (fuel : Nat) (source : String)

/-- The session after a call. -/
def Call.apply (s : Session) : Call → Session
  | .evaluate fuel capture program => (s.evaluate fuel capture program).1
  | .process fuel source => (s.process fuel source).1

/-- Whether a call captures what is printed. -/
def Call.captures : Call → Bool
  | .evaluate _ capture _ => capture
  | .process _ _ => false

/-- The session after calls, in order. -/
def after (s : Session) (calls : List Call) : Session :=
  calls.foldl Call.apply s

theorem handBack_apply (s : Session) (call : Call) : (call.apply s).handBack = (s.handBack || call.captures) := by
  cases call with
  | evaluate fuel capture program => rfl
  | process fuel source =>
    rw [Call.apply, process, Call.captures]
    cases readProgram source with
    | error f => exact (Bool.or_false _).symm
    | ok program =>
      dsimp only [carryOut]
      split
      · rfl
      · rfl
      · split <;> rfl

/-- Values are handed back exactly if some call has captured. -/
theorem handBack_after (s : Session) (calls : List Call) :
    (s.after calls).handBack = (s.handBack || calls.any Call.captures) := by
  induction calls generalizing s with
  | nil => exact (Bool.or_false _).symm
  | cons call calls ih =>
    rw [after, List.foldl_cons, ← after, ih, handBack_apply, List.any_cons, Bool.or_assoc]

/-- Ends of a run that are the same but for the result. -/
inductive SameEnd : Outcome → Outcome → Prop
  | done (r r' : Result) : SameEnd (.done r) (.done r')
  | failed (f : Fault) : SameEnd (.failed f) (.failed f)
  | unfinished : SameEnd .unfinished .unfinished

theorem SameEnd.refl (outcome : Outcome) : SameEnd outcome outcome := by
  cases outcome <;> constructor

section

variable {s s' : Session} (hσ : s'.store = s.store) (hc : s'.context = s.context) (fuel : Nat) (program : Tree)

include hσ hc

theorem evaluate_congr (hb : s'.handBack = s.handBack) (capture : Bool) :
    (s'.evaluate fuel capture program).1.store = (s.evaluate fuel capture program).1.store ∧
      (s'.evaluate fuel capture program).1.context = (s.evaluate fuel capture program).1.context ∧
      (s'.evaluate fuel capture program).2 = (s.evaluate fuel capture program).2 := by
  unfold evaluate
  rw [hσ, hc, hb]
  exact ⟨rfl, rfl, rfl⟩

/-- A run that does not capture, in a session that hands values back and in one that does not. -/
theorem evaluate_handBack (hb : s.handBack = false) (hb' : s'.handBack = true) :
    (s'.evaluate fuel false program).1.store = (s.evaluate fuel false program).1.store ∧
      (s'.evaluate fuel false program).1.context = (s.evaluate fuel false program).1.context ∧
      SameEnd (s'.evaluate fuel false program).2.2 (s.evaluate fuel false program).2.2 ∧
      ((s'.evaluate fuel false program).2 = (s.evaluate fuel false program).2 ↔
        ∀ t ∈ (load program s.store).performed (s.settingOf false program) fuel, t.printsValue = false) := by
  have hh : (s'.settingOf false program).home = (s.settingOf false program).home := by simp only [settingOf, hc]
  have he : (s.settingOf false program).handBack = false := by simp [settingOf, hb]
  have he' : (s'.settingOf false program).handBack = true := by simp [settingOf, hb']
  have hl : Beside false (load program s.store) (load program s'.store) :=
    ⟨⟨rfl, hσ, fun _ => rfl, by simp⟩, fun _ => rfl⟩
  obtain ⟨hm, hend⟩ := run_beside hh he he' fuel hl
  rw [Bool.false_or] at hm
  generalize hr : (load program s.store).run (s.settingOf false program) fuel = x at hm hend
  generalize hr' : (load program s'.store).run (s'.settingOf false program) fuel = y at hm hend
  obtain ⟨m, ending⟩ := x
  obtain ⟨m', ending'⟩ := y
  subst hend
  rw [evaluate_eq fuel false program s hr, evaluate_eq fuel false program s' hr', hc]
  refine ⟨hm.store, rfl, ?_, ?_⟩
  · cases ending' with
    | finished => exact .done _ _
    | failed f => exact .failed f
    | unfinished => exact .unfinished
  · rw [Prod.mk.injEq]
    cases hp : ((load program s.store).performed (s.settingOf false program) fuel).any Tree.printsValue with
    | false =>
      rw [hp] at hm
      refine iff_of_true ⟨hm.same rfl, ?_⟩ (by simpa using hp)
      cases ending' with
      | finished => exact congrArg Outcome.done (hm.result rfl)
      | _ => rfl
    | true =>
      rw [hp] at hm
      refine iff_of_false (fun h => ?_) (by simpa using hp)
      have hless := hm.less rfl
      rw [h.1] at hless
      exact Nat.lt_irrefl _ hless

end

/-- After any calls, a run that does not capture does the same to variables and programs, and ends in the same way, as
in a session with the same variables and programs in which no call has captured. It prints the same and has the same
result unless a call has captured and the run prints a value. -/
theorem evaluate_after (s s' : Session) (hs : s.handBack = false) (hs' : s'.handBack = false) (calls calls' : List Call)
    (hσ : (s.after calls).store = (s'.after calls').store) (hc : (s.after calls).context = (s'.after calls').context)
    (hn : ∀ call ∈ calls', call.captures = false) (fuel : Nat) (program : Tree) :
    ((s.after calls).evaluate fuel false program).1.store = ((s'.after calls').evaluate fuel false program).1.store ∧
      ((s.after calls).evaluate fuel false program).1.context =
        ((s'.after calls').evaluate fuel false program).1.context ∧
      SameEnd ((s.after calls).evaluate fuel false program).2.2 ((s'.after calls').evaluate fuel false program).2.2 ∧
      (((s.after calls).evaluate fuel false program).2 = ((s'.after calls').evaluate fuel false program).2 ↔
        (∀ call ∈ calls, call.captures = false) ∨
          ∀ t ∈ (load program (s'.after calls').store).performed ((s'.after calls').settingOf false program) fuel,
            t.printsValue = false) := by
  have hb' : (s'.after calls').handBack = false := by
    rw [handBack_after, hs', Bool.false_or, List.any_eq_false]
    simpa using hn
  have hb := handBack_after s calls
  rw [hs, Bool.false_or] at hb
  cases hcap : calls.any Call.captures with
  | false =>
    obtain ⟨h₁, h₂, h₃⟩ := evaluate_congr hσ hc fuel program (hb.trans (hcap.trans hb'.symm)) false
    refine ⟨h₁, h₂, ?_, iff_of_true h₃ (.inl ?_)⟩
    · rw [h₃]
      exact .refl _
    · simpa using List.any_eq_false.1 hcap
  | true =>
    obtain ⟨h₁, h₂, h₃, h₄⟩ := evaluate_handBack hσ hc fuel program hb' (hb.trans hcap)
    refine ⟨h₁, h₂, h₃, h₄.trans ⟨.inr, fun h => h.resolve_left fun hall => ?_⟩⟩
    obtain ⟨call, hmem, hcall⟩ := List.any_eq_true.1 hcap
    rw [hall call hmem] at hcall
    cases hcall

/-- A program that prints a value in the part that it chooses. -/
def loud : Tree :=
  .list [.assign "a" (.bool true), .when (.comparison "==" [.name "a", .bool true]) (.print (.name "a"))]

theorem evaluate_after_loud :
    (fresh.after [.evaluate 3 true loud]).store = (fresh.after [.evaluate 3 false loud]).store ∧
      (fresh.after [.evaluate 3 true loud]).context = (fresh.after [.evaluate 3 false loud]).context ∧
      ((fresh.after [.evaluate 3 true loud]).evaluate 3 false loud).1.store =
        ((fresh.after [.evaluate 3 false loud]).evaluate 3 false loud).1.store ∧
      ((fresh.after [.evaluate 3 true loud]).evaluate 3 false loud).2 ≠
        ((fresh.after [.evaluate 3 false loud]).evaluate 3 false loud).2 := by
  have hσ : (fresh.after [.evaluate 3 true loud]).store = (fresh.after [.evaluate 3 false loud]).store := by cbv
  have hc : (fresh.after [.evaluate 3 true loud]).context = (fresh.after [.evaluate 3 false loud]).context := by cbv
  obtain ⟨h, -, -, hiff⟩ := evaluate_after fresh fresh rfl rfl _ _ hσ hc (by decide) 3 loud
  have hp : (load loud (fresh.after [.evaluate 3 false loud]).store).performed
      ((fresh.after [.evaluate 3 false loud]).settingOf false loud) 3 =
      loud.statements ++ [.print (.name "a")] := by cbv
  rw [hp] at hiff
  exact ⟨hσ, hc, h, fun he => absurd (hiff.1 he) (by decide)⟩

/-- Once a run has captured, a later one prints its value no more. -/
theorem evaluate_captured_before :
    readProgram "print True" = .ok [.print (.bool true)] ∧ readProgram "print False" = .ok [.print (.bool false)] ∧
      ((fresh.evaluate 1 true (.list [.print (.bool true)])).1.evaluate 1 false (.list [.print (.bool false)])).2 =
        ("", .done (.value (.text "False\n"))) ∧
      ((fresh.evaluate 1 false (.list [.print (.bool true)])).1.evaluate 1 false (.list [.print (.bool false)])).2 =
        ("False\n", .done (.value .none)) := by
  refine ⟨?_, ?_, ?_, ?_⟩ <;> cbv

end Session

end Pseudocode
