import Mathlib
import Pseudocode.Proofs.Occurrence

/-!
# The program in which jumps look for their marks

A session remembers a program only if it is not equal to the last one, and equality does not tell `1` from `True` and
`1.0`. The program in which the marks of a run are looked for is the one that was remembered last, then: the program
itself, or an older one that is equal to it (`home_eq`). In the first case all statements of the run stand in the
program itself, behind jumps as well (`drawn_home`); in the second case a jump goes on in the older program.
-/

namespace Pseudocode

namespace Session

open Machine Pseudocode.Tree

variable {s : Session} {program : Tree}

/-- An equal program that was run last takes the place of a program. -/
theorem home_of_same {last : Tree} (hl : last ∈ s.context.head?) (h : last.same program) (capture : Bool) :
    (s.settingOf capture program).home = last := by
  obtain ⟨rest, hc⟩ := List.head?_eq_some_iff.1 hl
  simp [settingOf, hc, remember, h]

theorem home_of_not_same (h : ∀ last ∈ s.context.head?, last.same program = false) (capture : Bool) :
    (s.settingOf capture program).home = program := by
  cases hc : s.context with
  | nil => exact settingOf_home hc capture program
  | cons last rest =>
    have hl := h last (by rw [hc]; rfl)
    simp [settingOf, hc, remember, hl]

/-- Marks are looked for in the program itself unless the last program was equal to it and yet another one. -/
theorem home_eq (h : ∀ last ∈ s.context.head?, last.same program → last = program) (capture : Bool) :
    (s.settingOf capture program).home = program := by
  by_cases hs : ∃ last ∈ s.context.head?, last.same program
  · obtain ⟨last, hl, hp⟩ := hs
    rw [home_of_same hl hp, h last hl hp]
  · exact home_of_not_same (fun last hl => by simpa using fun hp => hs ⟨last, hl, hp⟩) capture

/-- All along a run, what is queued stands in the program where the run looks for marks. -/
theorem drawn_home (σ : Store) (items : List Tree) {env : Setting} (he : env.home = .list items) (n : Nat) :
    Drawn (.list items) ((load (.list items) σ).run env n).1.queue := by
  refine (run_keeps (I := fun m => Drawn (.list items) m.queue) ?_ n _ ?_).1
  · intro m m' hm hs
    exact hm.goes (he ▸ goes_of_step hs)
  · exact @Drawn.of_list (.list items) [] [] items (.here _)

/-- A jump whose mark stands in a list of the program goes on with what follows the mark there, and all that is queued
stands in the program itself, if the program run last is not equal to it or is the very same. Behind an equal program a
jump goes on with the rest of a list of that one. -/
theorem jump_stays_in_program (s : Session) (capture : Bool) (items : List Tree) (n : Nat) (m : Machine)
    (hm : m = ((load (.list items) s.store).run (s.settingOf capture (.list items)) n).1) (label : Tree)
    (rest : List Tree) (hq : m.queue = .jump label :: rest) (v : Passage) (hv : passingAmong label items = some v)
    (own : List Tree) (ho : v.own = some own) :
    ((∀ last ∈ s.context.head?, last.same (.list items) → last = .list items) →
        Drawn (.list items) m.queue ∧
        m.step (s.settingOf capture (.list items)) = .running { m with queue := own, result := nothing } ∧
        ∃ p pre, Holds (.list items) p (.list (pre ++ own))) ∧
      ∀ last ∈ s.context.head?, last.same (.list items) → ∀ m',
        m.step (s.settingOf capture (.list items)) = .running m' → ∃ p pre, Holds last p (.list (pre ++ m'.queue)) := by
  constructor
  · intro h
    have hh := home_eq h capture
    refine ⟨hm ▸ drawn_home s.store items hh n, ?_, holds_own_passingAmong [] hv ho⟩
    obtain ⟨_, around⟩ := v
    cases ho
    rw [step_eq hq, effect, perform, hh, jump_list, hv]
    rfl
  · intro last hl hs m' hstep
    have hh := home_of_same hl hs capture
    rw [step_eq hq, effect, perform, hh] at hstep
    rcases jump_cases last label with ⟨f, hf⟩ | ⟨w, own', hw, ho', hj⟩
    · rw [hf] at hstep
      cases hstep
    · rw [hj] at hstep
      cases hstep
      exact holds_own_passing hw ho'

/-- A program that jumps to its mark and prints a truth value, and the same with a number. -/
def truthful : List Tree :=
  [.jump (.int 1), .mark (.int 1), .print (.bool true)]

def numeric : List Tree :=
  [.jump (.int 1), .mark (.int 1), .print (.int 1)]

/-- A session in which the program with the number was run last. -/
def repeating : Session :=
  { fresh with context := [.list numeric, .list [.mark (.int 2)]] }

theorem jump_stays_repeating :
    (∀ last ∈ repeating.context.head?, last.same (.list numeric) → last = .list numeric) ∧
      (load (.list numeric) repeating.store).step (repeating.settingOf true (.list numeric)) =
        .running { load (.list numeric) repeating.store with queue := [.print (.int 1)], result := nothing } := by
  have hl : ∀ last ∈ repeating.context.head?, last.same (.list numeric) → last = .list numeric := by
    rintro last ⟨⟩ -
    rfl
  have hv : passingAmong (.int 1) numeric = some ⟨some [.print (.int 1)], []⟩ := by cbv
  have h := jump_stays_in_program repeating true numeric 0 _ rfl (.int 1) _ rfl _ hv _ rfl
  exact ⟨hl, (h.1 hl).2.1⟩

/-- Behind an equal program that prints a truth value, a program does not print its number. -/
theorem jump_leaves_program :
    readProgram "goto instruction 1\n@1\nprint True" = .ok truthful ∧
      readProgram "goto instruction 1\n@1\nprint 1" = .ok numeric ∧
      ((fresh.evaluate 2 false (.list truthful)).1.evaluate 2 false (.list numeric)).2.1 = "True\n" := by
  refine ⟨?_, ?_, ?_⟩ <;> cbv

end Session

end Pseudocode
