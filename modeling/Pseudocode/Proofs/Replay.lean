import Mathlib
import Pseudocode.Session.Console

/-!
# What a console runs

A console that is given lines without commands and conditionals runs each of them at once, and keeps those with which
all goes well. A blank line, or one with which it does not go well, makes the console run the kept ones once more, as
one text, and forget them. So the lines fall into stretches, each of them some accepted lines and the line that ends
them (`Stretch`, `Told`), and `play_told` says in these terms what all the lines come to: which texts are run, in
which order, and what is shown behind which line. `play_lines` puts this together for any plain lines. Each line is run
exactly once if and only if no accepted line comes before one that ends a stretch.
-/

namespace Pseudocode

namespace Session

/-- The session after texts, and what each of them printed. -/
def processAll (fuel : Nat) (s : Session) : List String → Session × List String
  | [] => (s, [])
  | text :: rest =>
    let (s, output, _) := s.process fuel text
    let (s, outputs) := s.processAll fuel rest
    (s, output :: outputs)

theorem processAll_append (fuel : Nat) (s : Session) (xs ys : List String) :
    s.processAll fuel (xs ++ ys) =
      (((s.processAll fuel xs).1.processAll fuel ys).1,
        (s.processAll fuel xs).2 ++ ((s.processAll fuel xs).1.processAll fuel ys).2) := by
  induction xs generalizing s with
  | nil => rfl
  | cons x xs ih => simp only [List.cons_append, processAll, ih]

end Session

namespace Console

variable (fuel : Nat)

/-! ## Stretches of lines -/

def blank (line : String) : Bool :=
  (Text.trim line).isEmpty

/-- A line that is no command and does not begin a conditional statement. -/
structure Plain (line : String) : Prop where
  command : ["exit", "clear", "history"].contains (String.ofList ((Text.trim line).toList.map Char.toLower)) = false
  once : Text.occursIn "then".toList (Text.trim line).toList = false

/-- The text that kept lines are run as, if there are any. -/
def again (kept : List String) : List String :=
  if kept.isEmpty then [] else [String.intercalate "\n" kept]

/-- Lines that are accepted, and the line that ends them. -/
structure Stretch where
  accepted : List String
  ending : String

namespace Stretch

def lines (p : Stretch) : List String :=
  p.accepted ++ [p.ending]

/-- The texts run once the last line is there: that line, and then the accepted ones together. -/
def rerun (p : Stretch) : List String :=
  [p.ending].filter (!blank ·) ++ again p.accepted

def texts (p : Stretch) : List String :=
  p.accepted ++ p.rerun

end Stretch

theorem processAll_texts (s : Session) (p : Stretch) :
    (s.processAll fuel p.texts).1 = ((s.processAll fuel p.accepted).1.processAll fuel p.rerun).1 := by
  rw [Stretch.texts, Session.processAll_append]

/-- The texts that are run for stretches of lines and the accepted lines after them. -/
def texts (stretches : List Stretch) (last : List String) : List String :=
  stretches.flatMap Stretch.texts ++ last

/-- Lines are accepted: none is blank, and all goes well with each of them. -/
def Accepted : Session → List String → Prop
  | _, [] => True
  | s, line :: rest =>
    blank line = false ∧ (s.process fuel line).2.2 = true ∧ Accepted (s.process fuel line).1 rest

/-- A line ends a stretch if it is blank or not all goes well with it. -/
def Ends (s : Session) (line : String) : Prop :=
  blank line = true ∨ (s.process fuel line).2.2 = false

/-- How lines that a session is told fall into stretches, with the accepted lines that no other line follows. -/
inductive Told : Session → List Stretch → List String → Prop
  | last {s : Session} {last : List String} (h : Accepted fuel s last) : Told s [] last
  | next {s : Session} {p : Stretch} {rest : List Stretch} {last : List String} (ha : Accepted fuel s p.accepted)
      (he : Ends fuel (s.processAll fuel p.accepted).1 p.ending) (h : Told (s.processAll fuel p.texts).1 rest last) :
      Told s (p :: rest) last

/-- What is shown behind each line. -/
def outputs (s : Session) : List Stretch → List String → List String
  | [], last => (s.processAll fuel last).2
  | p :: rest, last =>
    let (s', shown) := s.processAll fuel p.accepted
    shown ++ String.join (s'.processAll fuel p.rerun).2 :: outputs (s.processAll fuel p.texts).1 rest last

/-- What is on the screen if each of the outputs follows a prompt, and `tail` all of them. -/
def prompted (tail : String) : List String → String
  | [] => tail
  | output :: rest => "--[ " ++ output ++ prompted tail rest

/-- What is on the screen at the end, given what is shown behind each line. -/
def transcript (outputs : List String) : String :=
  prompted ("--[ " ++ "\n\nExiting Banter.\n") outputs

theorem prompted_append (tail : String) (xs ys : List String) :
    prompted tail (xs ++ ys) = prompted (prompted tail ys) xs := by
  induction xs with
  | nil => rfl
  | cons x xs ih => rw [List.cons_append, prompted, prompted, ih]

variable {fuel}

theorem Accepted.snoc {s : Session} {lines : List String} {line : String} (h : Accepted fuel s lines)
    (he : ¬ Ends fuel (s.processAll fuel lines).1 line) : Accepted fuel s (lines ++ [line]) := by
  induction lines generalizing s with
  | nil =>
    simp only [Ends, not_or, Bool.not_eq_true, Bool.not_eq_false] at he
    exact ⟨he.1, he.2, trivial⟩
  | cons first lines ih => exact ⟨h.1, h.2.1, ih h.2.2 he⟩

variable (fuel) in
/-- All lines fall into stretches. Those that are kept so far are accepted. -/
theorem exists_told {s : Session} {kept : List String} (h : Accepted fuel s kept) (lines : List String) :
    ∃ stretches last, kept ++ lines = stretches.flatMap Stretch.lines ++ last ∧ Told fuel s stretches last := by
  induction lines generalizing s kept with
  | nil => exact ⟨[], kept, List.append_nil kept, .last h⟩
  | cons line lines ih =>
    by_cases he : Ends fuel (s.processAll fuel kept).1 line
    · obtain ⟨stretches, last, hl, ht⟩ := @ih (s.processAll fuel (Stretch.texts ⟨kept, line⟩)).1 [] trivial
      refine ⟨⟨kept, line⟩ :: stretches, last, ?_, .next h he ht⟩
      rw [List.nil_append] at hl
      rw [hl, List.flatMap_cons, Stretch.lines]
      simp only [List.append_assoc, List.cons_append, List.nil_append]
    · obtain ⟨stretches, last, hl, ht⟩ := ih (h.snoc he)
      exact ⟨stretches, last, by rw [← hl, List.append_assoc]; rfl, ht⟩

/-! ## What a console does with a line -/

variable (fuel)

theorem flush_eq (s : Session) (kept : List String) (output : String) :
    (⟨s, kept, false⟩ : Console).flush fuel output =
      ⟨on (s.processAll fuel (again kept)).1, output ++ String.join (s.processAll fuel (again kept)).2, false⟩ := by
  unfold flush again
  cases kept with
  | nil => simp [Session.processAll]
  | cons line kept => simp [Session.processAll]

/-- A plain line runs what is kept if it is blank, and is run itself otherwise. -/
theorem react_plain {line : String} (h : Plain line) (s : Session) (kept : List String) :
    (⟨s, kept, false⟩ : Console).react fuel (.line line) =
      if blank line then (⟨s, kept, false⟩ : Console).flush fuel ""
      else if (s.process fuel line).2.2 then
        ⟨⟨(s.process fuel line).1, kept ++ [line], false⟩, (s.process fuel line).2.1, false⟩
      else (⟨(s.process fuel line).1, kept, false⟩ : Console).flush fuel (s.process fuel line).2.1 := by
  have hc := h.command
  simp only [List.contains_cons, List.contains_nil, Bool.or_false, Bool.or_eq_false_iff] at hc
  have hb : (String.ofList ((Text.trim line).toList.map Char.toLower)).isEmpty = blank line := by
    rw [blank, Bool.eq_iff_iff, String.isEmpty_iff, String.isEmpty_iff]
    simp
  rw [react]
  simp only [hc.1, hc.2.1, hc.2.2, hb, Bool.false_eq_true,
    if_false]
  split
  · cases kept <;> rfl
  · simp only [enter, h.once, Bool.false_eq_true, if_false]

theorem react_accepted {line : String} (h : Plain line) (hb : blank line = false) {s : Session}
    (hw : (s.process fuel line).2.2 = true) (kept : List String) :
    (⟨s, kept, false⟩ : Console).react fuel (.line line) =
      ⟨⟨(s.process fuel line).1, kept ++ [line], false⟩, (s.process fuel line).2.1, false⟩ := by
  rw [react_plain fuel h, hb, hw]
  rfl

/-- A line that ends a stretch is run unless it is blank, and then the lines kept are. -/
theorem react_ending {line : String} (h : Plain line) {s : Session} (he : Ends fuel s line) (kept : List String) :
    (⟨s, kept, false⟩ : Console).react fuel (.line line) =
      ⟨on (s.processAll fuel (Stretch.rerun ⟨kept, line⟩)).1,
        String.join (s.processAll fuel (Stretch.rerun ⟨kept, line⟩)).2, false⟩ := by
  rw [react_plain fuel h, Stretch.rerun, Session.processAll_append]
  cases hb : blank line with
  | true =>
    simp [hb, flush_eq, Session.processAll]
  | false =>
    have hw : (s.process fuel line).2.2 = false := he.resolve_left (by simp [hb])
    simp [hb, hw, flush_eq, Session.processAll]

/-! ## All lines -/

theorem play_line {c : Console} (hc : c.conditional = false) {line : String}
    (hl : (c.react fuel (.line line)).left = false) (events : List Event) :
    c.play fuel (.line line :: events) =
      (((c.react fuel (.line line)).console.play fuel events).1,
        "--[ " ++ (c.react fuel (.line line)).output ++ ((c.react fuel (.line line)).console.play fuel events).2) := by
  simp [play, hl, prompt, hc]

/-- Accepted lines are run and kept, one after the other. -/
theorem play_accepted {s : Session} {lines : List String} (hp : ∀ line ∈ lines, Plain line) (h : Accepted fuel s lines)
    (kept : List String) (events : List Event) :
    (⟨s, kept, false⟩ : Console).play fuel (lines.map .line ++ events) =
      let rest := (⟨(s.processAll fuel lines).1, kept ++ lines, false⟩ : Console).play fuel events
      (rest.1, prompted rest.2 (s.processAll fuel lines).2) := by
  induction lines generalizing s kept with
  | nil => simp [Session.processAll, prompted]
  | cons line lines ih =>
    obtain ⟨hb, hw, hr⟩ := h
    have he := react_accepted fuel (hp line List.mem_cons_self) hb hw kept
    have ih := ih (fun line hl => hp line (List.mem_cons_of_mem _ hl)) hr (kept ++ [line])
    rw [List.map_cons, List.cons_append, play_line fuel rfl (by rw [he]), he, ih]
    simp only [List.append_assoc, List.cons_append, List.nil_append, Session.processAll, prompted]

theorem play_told {s : Session} {stretches : List Stretch} {last : List String} (h : Told fuel s stretches last)
    (hp : ∀ line ∈ stretches.flatMap Stretch.lines ++ last, Plain line) :
    (on s).play fuel ((stretches.flatMap Stretch.lines ++ last).map .line) =
      ((s.processAll fuel (texts stretches last)).1, transcript (outputs fuel s stretches last)) := by
  induction h with
  | last h =>
    have hl := play_accepted fuel hp h [] []
    rw [List.append_nil] at hl
    simpa [on, texts, outputs, transcript, play, react, prompt] using hl
  | @next s p rest last ha he _ ih =>
    rw [List.flatMap_cons, List.append_assoc, Stretch.lines, List.append_assoc] at hp ⊢
    obtain ⟨hpa, hpe⟩ := List.forall_mem_append.1 hp
    obtain ⟨hpe, hpr⟩ := List.forall_mem_append.1 hpe
    have hre := react_ending fuel (hpe _ List.mem_cons_self) he p.accepted
    rw [List.map_append, on, play_accepted fuel hpa ha, List.nil_append, List.map_append, List.map_cons, List.map_nil,
      List.cons_append, List.nil_append, play_line fuel rfl (by rw [hre]), hre]
    rw [processAll_texts] at ih
    simp only [ih hpr, texts, List.flatMap_cons, List.append_assoc, Session.processAll_append, outputs, transcript,
      prompted_append, prompted, processAll_texts]

/-- All that is shown is what the texts printed, in order. -/
theorem join_outputs (s : Session) (stretches : List Stretch) (last : List String) :
    String.join (outputs fuel s stretches last) = String.join (s.processAll fuel (texts stretches last)).2 := by
  induction stretches generalizing s with
  | nil => rfl
  | cons p rest ih =>
    simp only [outputs, String.join_append, String.join_cons, ih]
    simp only [texts, List.flatMap_cons, Stretch.texts, List.append_assoc, Session.processAll_append,
      String.join_append]

/-! ## Which lines are run once only -/

variable {fuel}

theorem Accepted.filter {s : Session} {lines : List String} (h : Accepted fuel s lines) :
    lines.filter (!blank ·) = lines := by
  induction lines generalizing s with
  | nil => rfl
  | cons line lines ih =>
    obtain ⟨hb, -, hr⟩ := h
    rw [List.filter_cons_of_pos (by simp [hb]), ih hr]

/-- The texts are the lines that are not blank, and one more for each stretch with accepted lines. -/
theorem Told.length_texts {s : Session} {stretches : List Stretch} {last : List String}
    (h : Told fuel s stretches last) :
    (texts stretches last).length =
      ((stretches.flatMap Stretch.lines ++ last).filter (!blank ·)).length +
        (stretches.flatMap (again ·.accepted)).length := by
  induction h with
  | last h => simp [texts, h.filter]
  | next ha _ _ ih =>
    simp only [texts, Stretch.texts, Stretch.rerun, Stretch.lines, List.flatMap_cons, List.filter_append, ha.filter,
      List.length_append] at ih ⊢
    omega

theorem Told.texts_eq {s : Session} {stretches : List Stretch} {last : List String} (h : Told fuel s stretches last)
    (he : ∀ p ∈ stretches, p.accepted = []) :
    texts stretches last = (stretches.flatMap Stretch.lines ++ last).filter (!blank ·) := by
  induction h with
  | last h => exact h.filter.symm
  | @next _ p _ _ _ _ _ ih =>
    obtain ⟨hp, hr⟩ := List.forall_mem_cons.1 he
    have ht : p.texts = p.lines.filter (!blank ·) := by simp [Stretch.texts, Stretch.rerun, Stretch.lines, again, hp]
    have ih := ih hr
    rw [texts] at ih ⊢
    rw [List.flatMap_cons, List.flatMap_cons, List.append_assoc, List.append_assoc, List.filter_append, ← ht, ih]

/-- Exactly the lines that are not blank are run, each once, if none that is accepted comes before one that is not. -/
theorem Told.texts_eq_iff {s : Session} {stretches : List Stretch} {last : List String}
    (h : Told fuel s stretches last) :
    texts stretches last = (stretches.flatMap Stretch.lines ++ last).filter (!blank ·) ↔
      ∀ p ∈ stretches, p.accepted = [] := by
  refine ⟨fun he p hp => ?_, h.texts_eq⟩
  have hl := h.length_texts
  rw [he, Nat.left_eq_add, List.length_eq_zero_iff, List.flatMap_eq_nil_iff] at hl
  have ha := hl p hp
  by_contra hn
  simp [again, hn] at ha

variable (fuel)

/-- A console that is given plain lines runs every line that is not blank, in order, and behind each line that ends a
stretch it runs the accepted lines of the stretch once more, as one text. The session at the end and all that is shown
are those of running these texts. They are just the lines that are not blank if and only if no stretch has accepted
lines. -/
theorem play_lines (s : Session) (lines : List String) (hp : ∀ line ∈ lines, Plain line) :
    ∃ stretches last, lines = stretches.flatMap Stretch.lines ++ last ∧ Told fuel s stretches last ∧
      (on s).play fuel (lines.map .line) =
        ((s.processAll fuel (texts stretches last)).1, transcript (outputs fuel s stretches last)) ∧
      String.join (outputs fuel s stretches last) = String.join (s.processAll fuel (texts stretches last)).2 ∧
      (texts stretches last = lines.filter (!blank ·) ↔ ∀ p ∈ stretches, p.accepted = []) := by
  obtain ⟨stretches, last, hl, ht⟩ := @exists_told fuel s [] trivial lines
  rw [List.nil_append] at hl
  subst hl
  exact ⟨stretches, last, rfl, ht, play_told fuel ht hp, join_outputs fuel s stretches last, ht.texts_eq_iff⟩

/-- Lines with two stretches, one ended by a blank line and one by a text that cannot be run. -/
def halting : List String :=
  ["let x be 1", "let x be x + 1", "  ", "print x", "print y", "print 3"]

theorem play_lines_halting :
    (∀ line ∈ halting, Plain line) ∧
      ∃ stretches last, halting = stretches.flatMap Stretch.lines ++ last ∧ Told 2 .fresh stretches last ∧
        (on .fresh).play 2 (halting.map .line) =
          ((Session.fresh.processAll 2 (texts stretches last)).1, transcript (outputs 2 .fresh stretches last)) ∧
        String.join (outputs 2 .fresh stretches last) =
          String.join (Session.fresh.processAll 2 (texts stretches last)).2 ∧
        (texts stretches last = halting.filter (!blank ·) ↔ ∀ p ∈ stretches, p.accepted = []) := by
  have hp : ∀ line ∈ halting, Plain line := by
    simp only [halting, List.forall_mem_cons, List.not_mem_nil, false_imp_iff, implies_true, and_true]
    refine ⟨⟨?_, ?_⟩, ⟨?_, ?_⟩, ⟨?_, ?_⟩, ⟨?_, ?_⟩, ⟨?_, ?_⟩, ⟨?_, ?_⟩⟩ <;> cbv
  exact ⟨hp, play_lines 2 .fresh halting hp⟩

/-- The session after one line was run so many times. -/
def echoing (times : Nat) : Session :=
  ⟨.empty, [.list [.print (.bool true)]], List.replicate times (.print (.bool true)), false⟩

/-- A blank line runs the line before it once more. -/
theorem play_blank_after :
    (∀ line ∈ ["print True", ""], Plain line) ∧
      (on .fresh).play 1 (["print True", ""].map .line) = (echoing 2, "--[ True\n--[ True\n--[ \n\nExiting Banter.\n") ∧
      Session.fresh.processAll 1 (["print True", ""].filter (!blank ·)) = (echoing 1, ["True\n"]) := by
  have hp : ∀ line ∈ ["print True", ""], Plain line := by
    simp only [List.forall_mem_cons, List.not_mem_nil, false_imp_iff, implies_true, and_true]
    refine ⟨⟨?_, ?_⟩, ⟨?_, ?_⟩⟩ <;> cbv
  have hn : blank "print True" = false := by cbv
  have hb : blank "" = true := by cbv
  have hr : readProgram "print True" = .ok [.print (.bool true)] := by cbv
  have h₁ : Session.fresh.process 1 "print True" = (echoing 1, "True\n", true) := by
    simp only [Session.process, hr]
    cbv
  have h₂ : (echoing 1).process 1 "print True" = (echoing 2, "True\n", true) := by
    simp only [Session.process, hr]
    cbv
  have ht : Told 1 .fresh [⟨["print True"], ""⟩] [] := .next ⟨hn, by rw [h₁], trivial⟩ (.inl hb) (.last trivial)
  have hl := play_told 1 ht hp
  refine ⟨hp, hl.trans ?_, ?_⟩
  · simp [texts, outputs, Stretch.texts, Stretch.rerun, again, hb, Session.processAll, h₁, h₂, transcript, prompted]
  · simp [hn, hb, Session.processAll, h₁]

end Console

end Pseudocode
