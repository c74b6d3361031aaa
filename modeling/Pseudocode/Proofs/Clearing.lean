import Mathlib
import Pseudocode.Proofs.Processing
import Pseudocode.Proofs.Replay

/-!
# What `clear` leaves behind

The lines that a console keeps are the last ones that were typed: all that came since it was last at rest, with nothing
kept (`exists_rest`). `clear` forgets all variables and programs, but not these lines. It runs them, as one text, on the
session that it has just emptied. So at the next prompt nothing is left of the past, and yet the session is empty only
if no line was kept, or if the kept lines are no program: `clear_leaves`.
-/

namespace Pseudocode

namespace Session

/-- A session without variables and programs. -/
structure Empty (s : Session) : Prop where
  store : s.store = .empty
  context : s.context = []
  history : s.history = []

theorem empty_clear (s : Session) : s.clear.Empty :=
  ⟨rfl, rfl, rfl⟩

theorem Remembered.ne_nil {context context' : List Tree} {program : Tree} (h : Remembered context program context') :
    context' ≠ [] := by
  rcases h with ⟨hl, -⟩ | -
  · rintro rfl
    simp at hl
  · simp

/-- A text leaves a session empty only if it cannot be read: a program that is run is remembered, however it ends. -/
theorem empty_process_iff {s : Session} (hs : s.Empty) (fuel : Nat) (source : String) :
    (s.process fuel source).1.Empty ↔ ∃ f, readProgram source = .error f := by
  rw [process]
  cases hr : readProgram source with
  | error f => simpa using hs
  | ok program =>
    have hc := (carriedOut fuel program s).context.ne_nil
    simp only [reduceCtorEq, exists_false, iff_false]
    intro he
    exact hc he.context

end Session

namespace Console

variable (fuel : Nat)

/-! ## From prompt to prompt -/

/-- The console at the prompt behind some events, unless it was left before. -/
def after? (c : Console) : List Event → Option Console
  | [] => some c
  | e :: rest =>
    let r := c.react fuel e
    if r.left then none else r.console.after? rest

variable {fuel}

theorem after?_append (c : Console) (pre post : List Event) :
    c.after? fuel (pre ++ post) = (c.after? fuel pre).bind (·.after? fuel post) := by
  induction pre generalizing c with
  | nil => rfl
  | cons e pre ih =>
    simp only [List.cons_append, after?]
    split
    · rfl
    · exact ih _

theorem after?_snoc {c c' : Console} {pre : List Event} {e : Event} (h : c.after? fuel (pre ++ [e]) = some c') :
    ∃ c₁, c.after? fuel pre = some c₁ ∧ (c₁.react fuel e).left = false ∧ (c₁.react fuel e).console = c' := by
  rw [after?_append] at h
  obtain ⟨c₁, h₁, h₂⟩ := Option.bind_eq_some_iff.1 h
  simp only [after?] at h₂
  split at h₂
  · cases h₂
  · rename_i hl
    exact ⟨c₁, h₁, by simpa using hl, by simpa using h₂⟩

/-- What a run comes to does not depend on more than the console at a prompt and the events behind it. -/
theorem play_after? {c c' : Console} {pre : List Event} (h : c.after? fuel pre = some c') (post : List Event) :
    (c.play fuel (pre ++ post)).1 = (c'.play fuel post).1 := by
  induction pre generalizing c with
  | nil =>
    cases h
    rfl
  | cons e pre ih =>
    simp only [after?] at h
    split at h
    · cases h
    · rename_i hl
      simp only [List.cons_append, play, if_neg hl]
      exact ih h

/-! ## The lines kept -/

/-- A line as a command is written in small letters. -/
def command (line : String) : String :=
  String.ofList ((Text.trim line).toList.map Char.toLower)

/-- A line that is neither blank nor a command. -/
structure Entered (line : String) : Prop where
  written : blank line = false
  plain : ["exit", "clear", "history"].contains (command line) = false

theorem blank_eq (line : String) : (command line).isEmpty = blank line := by
  rw [blank, command, Bool.eq_iff_iff, String.isEmpty_iff, String.isEmpty_iff]
  simp

/-- What an event that does not end the run can do to a console. -/
inductive Turns (c : Console) : Event → Console → Prop
  /-- A blank line where nothing is kept does nothing. -/
  | idle (e : Event) (hk : c.kept = []) : Turns c e c
  /-- The console comes to rest: the lines kept are run or dropped. -/
  | rests (e : Event) (s : Session) : Turns c e (on s)
  | keeps {line : String} (hl : Entered line) (s : Session) (conditional : Bool) :
      Turns c (.line line) ⟨s, c.kept ++ [line], conditional⟩

/-- What a console does with a line, by the command that the line is. -/
theorem react_line (c : Console) (line : String) :
    c.react fuel (.line line) =
      if command line = "exit" then ⟨c, "\nExiting Banter.\n", true⟩
      else if command line = "clear" then
        (⟨c.session.clear, c.kept, c.conditional⟩ : Console).flush fuel "Program context cleared.\n"
      else if command line = "history" then c.showHistory fuel
      else if blank line then
        if c.kept.isEmpty then ⟨c, "", false⟩ else c.flush fuel ""
      else c.enter fuel line := by
  rw [← blank_eq, command]
  simp only [react, beq_iff_eq]

theorem react_entered (c : Console) {line : String} (h : Entered line) :
    c.react fuel (.line line) = c.enter fuel line := by
  have hp := h.plain
  simp only [List.contains_cons, List.contains_nil, Bool.or_false, Bool.or_eq_false_iff, beq_eq_false_iff_ne] at hp
  rw [react_line, if_neg hp.1, if_neg hp.2.1, if_neg hp.2.2, if_neg (by simp [h.written])]

theorem flush_rests (c : Console) (output : String) :
    (c.flush fuel output).left = false ∧
      (c.flush fuel output).console = on (c.session.processAll fuel (again c.kept)).1 := by
  have hf : c.flush fuel output = _ := flush_eq fuel c.session c.kept output
  rw [hf]
  exact ⟨rfl, rfl⟩

theorem flush_turns (c c' : Console) (e : Event) (output : String) : Turns c e (c'.flush fuel output).console := by
  rw [(flush_rests c' output).2]
  exact .rests e _

theorem showHistory_turns (c : Console) (e : Event) : Turns c e (c.showHistory fuel).console := by
  unfold showHistory
  dsimp only
  split
  · exact .rests e _
  · exact flush_turns c c e _

theorem enter_turns (c : Console) {line : String} (hl : Entered line) :
    Turns c (.line line) (c.enter fuel line).console := by
  unfold enter
  split
  · exact .keeps hl _ _
  · split
    · exact .keeps hl _ _
    · dsimp only
      split
      · exact .keeps hl _ _
      · exact flush_turns c _ _ _

theorem react_turns (c : Console) {e : Event} (h : (c.react fuel e).left = false) :
    Turns c e (c.react fuel e).console := by
  cases e with
  | ended => simp [react] at h
  | interrupt => exact .rests _ _
  | line line =>
    rw [react_line] at h ⊢
    by_cases he : command line = "exit"
    · simp [he] at h
    by_cases hc : command line = "clear"
    · rw [if_neg he, if_pos hc]
      exact flush_turns c _ _ _
    by_cases hh : command line = "history"
    · rw [if_neg he, if_neg hc, if_pos hh]
      exact showHistory_turns c _
    rw [if_neg he, if_neg hc, if_neg hh]
    by_cases hb : blank line = true
    · rw [if_pos hb]
      by_cases hk : c.kept = []
      · rw [if_pos (by simp [hk])]
        exact .idle _ hk
      · rw [if_neg (by simp [hk])]
        exact flush_turns c c _ _
    · rw [if_neg hb]
      exact enter_turns c ⟨by simpa using hb, by simp [he, hc, hh]⟩

/-- The lines that a console keeps are the last events, and before them it was at rest. -/
theorem exists_rest {s : Session} {pre : List Event} {c : Console} (h : (on s).after? fuel pre = some c) :
    ∃ before s₀, pre = before ++ c.kept.map .line ∧ (on s).after? fuel before = some (on s₀) ∧
      (∀ line ∈ c.kept, Entered line) ∧ (c.kept = [] → c = on s₀) := by
  -- From the last event backwards: it is kept behind what was kept before, or nothing is kept any more.
  induction pre using List.reverseRecOn generalizing c with
  | nil =>
    cases h
    exact ⟨[], s, rfl, rfl, by simp [on], fun _ => rfl⟩
  | append_singleton pre e ih =>
    obtain ⟨c₁, h₁, hl, rfl⟩ := after?_snoc h
    have ht := react_turns c₁ hl
    generalize (c₁.react fuel e).console = c at h ht
    obtain ⟨before, s₀, hpre, hs, hk, he⟩ := ih h₁
    cases ht with
    | idle _ hn =>
      have hc := he hn
      subst hc
      exact ⟨pre ++ [e], s₀, by simp [on], h, by simp [on], fun _ => rfl⟩
    | rests _ s' => exact ⟨pre ++ [e], s', by simp [on], h, by simp [on], fun _ => rfl⟩
    | @keeps line hline s' conditional =>
      refine ⟨before, s₀, ?_, hs, ?_, by simp⟩
      · rw [hpre]
        simp
      · simp only [List.mem_append, List.mem_singleton]
        rintro _ (hm | rfl)
        · exact hk _ hm
        · exact hline

/-! ## `clear` -/

theorem react_clear (c : Console) {line : String} (hl : command line = "clear") :
    (c.react fuel (.line line)).left = false ∧
      (c.react fuel (.line line)).console = on (c.session.clear.processAll fuel (again c.kept)).1 := by
  rw [react_line, if_neg (by simp [hl]), if_pos hl]
  exact flush_rests _ _

/-- The lines kept leave an emptied session empty only if there are none, or if they are no program. -/
theorem empty_again_iff (s : Session) (kept : List String) :
    (s.clear.processAll fuel (again kept)).1.Empty ↔
      kept = [] ∨ ∃ f, readProgram (String.intercalate "\n" kept) = .error f := by
  cases kept with
  | nil => simp [again, Session.processAll, s.empty_clear]
  | cons line kept => simp [again, Session.processAll, Session.empty_process_iff s.empty_clear]

variable (fuel)

/-- Wherever `clear` is typed, the console is at rest at the next prompt, and its session is that of running the lines
kept since it was at rest before on a session that was emptied. It is empty if and only if no line was kept, or the
lines kept are no program. -/
theorem clear_leaves (s : Session) (pre post : List Event) (c : Console) (hc : (on s).after? fuel pre = some c)
    (line : String) (hl : command line = "clear") :
    ∃ before s₀ s', pre = before ++ c.kept.map .line ∧ (on s).after? fuel before = some (on s₀) ∧
      (∀ line ∈ c.kept, Entered line) ∧
      (on s).after? fuel (pre ++ [.line line]) = some (on s') ∧
      ((on s).play fuel (pre ++ .line line :: post)).1 = ((on s').play fuel post).1 ∧
      s' = (c.session.clear.processAll fuel (again c.kept)).1 ∧
      (s'.Empty ↔ c.kept = [] ∨ ∃ f, readProgram (String.intercalate "\n" c.kept) = .error f) := by
  obtain ⟨before, s₀, hpre, hb, hk, -⟩ := exists_rest hc
  obtain ⟨hleft, hrest⟩ := @react_clear fuel c line hl
  have ha : (on s).after? fuel (pre ++ [.line line]) =
      some (on (c.session.clear.processAll fuel (again c.kept)).1) := by
    rw [after?_append, hc]
    simp [after?, hleft, hrest]
  have hp := play_after? ha post
  rw [List.append_assoc, List.singleton_append] at hp
  exact ⟨before, s₀, _, hpre, hb, hk, ha, hp, rfl, empty_again_iff c.session c.kept⟩

/-- The session after one line has set a variable. -/
def knowing : Session :=
  ⟨⟨[("x", .int 1)]⟩, [.list [.assign "x" (.int 1)]], [.assign "x" (.int 1)], false⟩

/-- A conditional statement in the middle of which `clear` is typed. -/
def interrupted : List String :=
  ["if x == 1, then", "  let y be 2"]

theorem clear_leaves_interrupted :
    (on knowing).after? 3 (interrupted.map .line) = some ⟨knowing, interrupted, true⟩ ∧ command " CLEAR" = "clear" ∧
      ∃ s', (on knowing).after? 3 (interrupted.map .line ++ [.line " CLEAR"]) = some (on s') ∧ ¬s'.Empty := by
  have hc : (on knowing).after? 3 (interrupted.map .line) = some ⟨knowing, interrupted, true⟩ := by
    have h₁ : Entered "if x == 1, then" := by constructor <;> cbv
    have h₂ : Entered "  let y be 2" := by constructor <;> cbv
    have ht : Text.occursIn "then".toList (Text.trim "if x == 1, then").toList = true := by cbv
    rw [interrupted, List.map_cons, List.map_singleton, after?, react_entered _ h₁, enter, if_pos ht, after?,
      react_entered _ h₂, enter]
    simp [after?, on]
  have hl : command " CLEAR" = "clear" := by cbv
  have hr : readProgram (String.intercalate "\n" interrupted) =
      .ok [.when (.comparison "==" [.name "x", .int 1]) (.assign "y" (.int 2))] := by cbv
  obtain ⟨-, -, s', -, -, -, ha, -, -, he⟩ := clear_leaves 3 knowing _ [] _ hc " CLEAR" hl
  refine ⟨hc, hl, s', ha, ?_⟩
  rw [he, hr]
  simp [interrupted]

/-- A variable that was set since the last blank line is there again at the prompt behind `clear`. -/
theorem play_clear_behind :
    command "clear" = "clear" ∧ ((on .fresh).play 1 [.line "let x be 1", .line "clear"]).1 = knowing ∧
      ¬knowing.Empty := by
  have hl : command "clear" = "clear" := by cbv
  have hplain : Plain "let x be 1" := by constructor <;> cbv
  have hb : blank "let x be 1" = false := by cbv
  have hr : readProgram "let x be 1" = .ok [.assign "x" (.int 1)] := by cbv
  have hp : Session.fresh.process 1 "let x be 1" = (knowing, "", true) := by
    simp only [Session.process, hr]
    cbv
  have hc : (on .fresh).after? 1 [.line "let x be 1"] = some ⟨knowing, ["let x be 1"], false⟩ := by
    rw [after?, on, react_accepted 1 hplain hb (by rw [hp])]
    simp [after?, hp]
  have hs : knowing.clear = Session.fresh := rfl
  obtain ⟨hleft, hrest⟩ := @react_clear 1 ⟨knowing, ["let x be 1"], false⟩ "clear" hl
  refine ⟨hl, ?_, fun h => by simpa [knowing] using h.context⟩
  rw [← List.singleton_append, play_after? hc, play, hleft, hrest, if_neg Bool.false_ne_true]
  simp [play, react, on, again, Session.processAll, hs, hp]

end Console

end Pseudocode
