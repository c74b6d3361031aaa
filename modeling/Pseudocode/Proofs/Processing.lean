import Mathlib
import Pseudocode.Proofs.LexerPast
import Pseudocode.Proofs.Sequence
import Pseudocode.Session.Desk

/-!
# What a session makes of a text

A session does not run the program that reading a text gives back. It runs what the parser holds then, and the parser
changes that with every item that it has read, also of a text that turns out to be wrong. A `Desk` is a session with
such a parser. Behind a text that can be read the parser holds exactly its program, whatever it held before
(`Parser.latest_parse`), so a desk does what its session does (`Desk.process_session`).

`Desk.Treated` says what a text does to a session if it can be read and if it cannot. From this follows what holds
after any number of texts: the history is made up of the programs of those that went well (`Desk.history_after`), and no
program stands in the context next to an equal one (`Desk.distinct_after`).
-/

namespace Pseudocode

/-! ## Equality in both directions -/

open Float.Model in
theorem compare_unpacked (a b : UnpackedFloat) : b.compare a = (a.compare b).map Ordering.swap := by
  cases a with
  | notANumber => cases b <;> rfl
  | infinity s =>
    cases b with
    | infinity s' => cases s <;> cases s' <;> rfl
    | _ => cases s <;> rfl
  | zero s =>
    cases b with
    | infinity s' | finite s' => cases s' <;> rfl
    | _ => rfl
  | finite s m e h =>
    cases b with
    | infinity s' => cases s <;> cases s' <;> rfl
    | finite s' m' e' h' =>
      have hc : (compare e' e).then (compare m' m) = ((compare e e').then (compare m m')).swap := by
        rw [Ordering.swap_then, Std.OrientedOrd.eq_swap (a := e'), Std.OrientedOrd.eq_swap (a := m')]
      cases s <;> cases s'
      case negative.negative => exact congrArg (some ∘ Ordering.swap) hc
      case positive.positive => exact congrArg some hc
      all_goals rfl
    | _ => cases s <;> rfl

theorem compareFloat_eq (x y : Float) :
    Number.compareFloat x y = some .eq ↔ x.toModel.unpack.compare y.toModel.unpack = some .eq := by
  have hl : x < y ↔ x.toModel.unpack.compare y.toModel.unpack = some .lt := by
    show decide (x.toModel < y.toModel) = true ↔ _
    rw [decide_eq_true_iff]
    show (x.toModel.unpack.compare y.toModel.unpack == some .lt) = true ↔ _
    rw [beq_iff_eq]
  have he : (x == y) = (x.toModel.unpack.compare y.toModel.unpack == some .eq) := rfl
  unfold Number.compareFloat
  rw [he]
  split
  · simp_all
  · split
    · simp_all
    · split <;> simp_all

theorem swap_eq_some (o : Option Ordering) : o.map Ordering.swap = some .eq ↔ o = some .eq := by
  rcases o with _ | _ | _ | _ <;> simp

theorem Num.compare_comm (m n : Num) : m.compare n = some .eq ↔ n.compare m = some .eq := by
  cases m with
  | int m =>
    cases n with
    | int n =>
      simp only [Num.compare, Option.some.injEq, compare_eq_iff_eq]
      exact eq_comm
    | float y => exact (swap_eq_some _).symm
  | float x =>
    cases n with
    | int n => exact swap_eq_some _
    | float y =>
      show Number.compareFloat x y = some .eq ↔ Number.compareFloat y x = some .eq
      rw [compareFloat_eq, compareFloat_eq, compare_unpacked x.toModel.unpack, swap_eq_some]

namespace Tree

theorem sameNumber_comm (a b : Tree) : a.sameNumber b = b.sameNumber a := by
  unfold sameNumber
  cases a.num? with
  | none => cases b.num? <;> rfl
  | some m =>
    cases b.num? with
    | none => rfl
    | some n =>
      rw [Bool.eq_iff_iff, beq_iff_eq, beq_iff_eq]
      exact Num.compare_comm m n

theorem sameParts_comm :
    (∀ a b : Tree, a.samePart b = b.samePart a) ∧ ∀ xs ys : List Tree, sameAll xs ys = sameAll ys xs := by
  apply samePart.mutual_induct
  -- Trees of two kinds are equal as numbers only.
  case case15 =>
    intro a b
    intros
    have hb : b.samePart a = b.sameNumber a := by
      rw [samePart]
      all_goals grind
    rw [samePart, hb, sameNumber_comm] <;> assumption
  case case18 =>
    intro xs ys _ _
    rw [sameAll, sameAll]
    all_goals grind
  all_goals intros; simp only [samePart, sameAll, *]
  all_goals simp only [Bool.beq_comm]

/-- Equality does not depend on which of two trees comes first. -/
theorem same_comm (a b : Tree) : a.same b = b.same a := by
  unfold same
  split
  case h_1 => rfl
  case h_2 h =>
    split
    case h_1 => exact (h _ _ rfl rfl).elim
    case h_2 => exact sameParts_comm.1 a b

end Tree

/-! ## A session and its parser -/

/-- Behind a text that can be read, a parser holds its program. -/
theorem Parser.latest_parse (p : Parser) {source : String} {program : List Tree}
    (h : readProgram source = .ok program) :
    (p.parse source).1 = .ok program ∧ (p.parse source).2.latest = program := by
  have hu := p.parse_unplaced source
  rw [h] at hu
  have hp : (p.parse source).1 = .ok program := by
    cases he : (p.parse source).1 with
    | error f => rw [he] at hu; cases hu
    | ok q => rw [he] at hu; cases hu; rfl
  have hb : p.latest = Reader.start.soFar p.latest := rfl
  exact ⟨hp, readOn_latest hb (readProgram_items h).ne_nil hp⟩

theorem Parser.parse_fault (p : Parser) {source : String} {f : ReadFault} (h : readProgram source = .error f) :
    ∃ f', (p.parse source).1 = .error f' ∧ f'.notice = f.notice := by
  have hu := p.parse_unplaced source
  rw [h] at hu
  cases he : (p.parse source).1 with
  | ok q => rw [he] at hu; cases hu
  | error f' =>
    rw [he] at hu
    refine ⟨f', rfl, ?_⟩
    rw [← f'.unplaced_reports.2, ← f.unplaced_reports.2, Except.error.inj hu]

namespace Desk

section

variable (fuel : Nat) {source : String} (d : Desk)

theorem process_unread {f : ReadFault} (h : readProgram source = .error f) :
    d.process fuel source = (⟨d.session, (d.parser.parse source).2⟩, Session.unreadLine f, false) := by
  obtain ⟨f', hf, hn⟩ := d.parser.parse_fault h
  have hp : d.parser.parse source = (.error f', (d.parser.parse source).2) := Prod.ext hf rfl
  rw [process, hp]
  simp only [Session.unreadLine, hn]

theorem process_read {program : List Tree} (h : readProgram source = .ok program) :
    d.process fuel source =
      (⟨(d.session.carryOut fuel program).1, (d.parser.parse source).2⟩, (d.session.carryOut fuel program).2) := by
  obtain ⟨hr, hl⟩ := d.parser.latest_parse h
  have hp : d.parser.parse source = (.ok program, (d.parser.parse source).2) := Prod.ext hr rfl
  rw [process, hp]
  simp only [hl]

end

/-- A desk does what its session does alone. -/
theorem process_session (fuel : Nat) (source : String) (d : Desk) :
    (d.process fuel source).1.session = (d.session.process fuel source).1 ∧
      (d.process fuel source).2 = (d.session.process fuel source).2 := by
  rw [Session.process]
  cases h : readProgram source with
  | error f =>
    rw [process_unread fuel d h]
    exact ⟨rfl, rfl⟩
  | ok program =>
    rw [process_read fuel d h]
    exact ⟨rfl, rfl⟩

end Desk

/-! ## What becomes of a session -/

namespace Session

/-- What becomes of the programs run when another one is run: they stay if the last of them is equal to it, and it is
put in front of them otherwise. -/
inductive Remembered (context : List Tree) (program : Tree) : List Tree → Prop
  | kept {last : Tree} (hl : last ∈ context.head?) (hs : last.same program = true) :
      Remembered context program context
  | pushed (hs : ∀ last ∈ context.head?, last.same program = false) : Remembered context program (program :: context)

theorem remembered (context : List Tree) (program : Tree) : Remembered context program (remember context program) := by
  cases context with
  | nil => exact .pushed (by simp)
  | cons last rest =>
    rw [remember]
    split
    · exact .kept rfl ‹_›
    · refine .pushed ?_
      rintro _ ⟨⟩
      exact eq_false_of_ne_true ‹_›

/-- Neighbours among the programs run are not equal. -/
def Distinct (context : List Tree) : Prop :=
  context.IsChain fun newer older => newer.same older = false ∧ older.same newer = false

theorem Remembered.distinct {context context' : List Tree} {program : Tree} (h : Remembered context program context')
    (hd : Distinct context) : Distinct context' := by
  cases h with
  | kept => exact hd
  | pushed hs =>
    refine List.IsChain.cons hd fun last hl => ?_
    have hf := hs last hl
    exact ⟨by rw [Tree.same_comm, hf], hf⟩

/-- A result can be shown exactly if it is nothing, a returned value, or a value that there is a text for. -/
theorem resultLine_iff (r : Result) :
    (∃ line, resultLine r = .ok line) ↔ ∀ t, r = .value t → t = .none ∨ ∃ text, t.show? = .ok text := by
  cases r with
  | returned t => exact iff_of_true ⟨_, rfl⟩ (by rintro t ⟨⟩)
  | value t =>
    simp only [Result.value.injEq, forall_eq']
    by_cases hn : t = .none
    · exact iff_of_true ⟨"", by rw [hn]; rfl⟩ (.inl hn)
    · have hl : resultLine (.value t) = t.show?.map (· ++ "\n") := by
        cases t <;> first | rfl | exact absurd rfl hn
      rw [hl]
      cases t.show? <;> simp [Except.map, hn]

/-- What carrying out a program does to a session, and whether all goes well. -/
structure CarriedOut (fuel : Nat) (program : List Tree) (s s' : Session) (well : Bool) : Prop where
  store : s'.store = (s.evaluate fuel false (.list program)).1.store
  context : Remembered s.context (.list program) s'.context
  /-- All goes well if the run ends without a fault and there is a text for a value that it results in. -/
  well_iff : well = true ↔ ∃ r, (s.evaluate fuel false (.list program)).2.2 = .done r ∧
    ∀ t, r = .value t → t = .none ∨ ∃ text, t.show? = .ok text
  history : s'.history = if well then s.history ++ program else s.history

theorem carriedOut (fuel : Nat) (program : List Tree) (s : Session) :
    CarriedOut fuel program s (s.carryOut fuel program).1 (s.carryOut fuel program).2.2 := by
  have hc : (s.evaluate fuel false (.list program)).1.context = remember s.context (.list program) := rfl
  have hh : (s.evaluate fuel false (.list program)).1.history = s.history := rfl
  have hr := remembered s.context (.list program)
  rw [← hc] at hr
  unfold carryOut
  generalize he : s.evaluate fuel false (.list program) = x at hr hh ⊢
  obtain ⟨s', output, outcome⟩ := x
  cases outcome with
  | unfinished => exact ⟨by rw [he], hr, by simp [he], hh⟩
  | failed f => exact ⟨by rw [he], hr, by simp [he], hh⟩
  | done r =>
    have hw := resultLine_iff r
    dsimp only
    cases hl : resultLine r with
    | error f => exact ⟨by rw [he], hr, by simp [he, ← hw, hl], hh⟩
    | ok line => exact ⟨by rw [he], hr, by simp [he, ← hw, hl], congrArg (· ++ program) hh⟩

end Session

/-! ## Texts one after the other -/

/-- The program of a text, and nothing if it has none. -/
def itemsOf (source : String) : List Tree :=
  match readProgram source with
  | .ok program => program
  | .error _ => []

namespace Desk

/-- What becomes of a desk that is given a text. -/
inductive Treated (fuel : Nat) (source : String) (d : Desk) : Desk → Bool → Prop
  /-- The text cannot be read, and the session stays as it is. -/
  | unread {f : ReadFault} (h : readProgram source = .error f) (parser : Parser) :
      Treated fuel source d ⟨d.session, parser⟩ false
  /-- The text can be read. The parser holds its program, which is carried out. -/
  | read {program : List Tree} {d' : Desk} {well : Bool} (h : readProgram source = .ok program)
      (hp : d.parser.parse source = (.ok program, d'.parser)) (hl : d'.parser.latest = program)
      (hs : d.session.CarriedOut fuel program d'.session well) : Treated fuel source d d' well

theorem treated (fuel : Nat) (source : String) (d : Desk) :
    Treated fuel source d (d.process fuel source).1 (d.process fuel source).2.2 := by
  cases h : readProgram source with
  | error f =>
    rw [process_unread fuel d h]
    exact .unread h _
  | ok program =>
    rw [process_read fuel d h]
    obtain ⟨hr, hl⟩ := d.parser.latest_parse h
    exact .read h (Prod.ext hr rfl) hl (Session.carriedOut fuel program d.session)

theorem Treated.history {fuel : Nat} {source : String} {d d' : Desk} {well : Bool} (h : Treated fuel source d d' well) :
    d'.session.history = d.session.history ++ if well then itemsOf source else [] := by
  cases h with
  | unread => exact (List.append_nil _).symm
  | read h _ _ hs =>
    rw [hs.history, itemsOf, h]
    cases well
    · exact (List.append_nil _).symm
    · rfl

theorem Treated.distinct {fuel : Nat} {source : String} {d d' : Desk} {well : Bool} (h : Treated fuel source d d' well)
    (hd : Session.Distinct d.session.context) : Session.Distinct d'.session.context := by
  cases h with
  | unread => exact hd
  | read _ _ _ hs => exact hs.context.distinct hd

/-- The history grows by the programs of the texts that went well. -/
theorem history_after (d : Desk) (texts : List (Nat × String)) :
    (d.after texts).session.history = d.session.history ++ (d.successes texts).flatMap itemsOf := by
  induction texts generalizing d with
  | nil => exact (List.append_nil _).symm
  | cons text texts ih =>
    obtain ⟨fuel, source⟩ := text
    rw [after, ih, (treated fuel source d).history, successes, List.flatMap_append, List.append_assoc]
    cases (d.process fuel source).2.2 <;> simp

theorem distinct_after {d : Desk} (h : Session.Distinct d.session.context) (texts : List (Nat × String)) :
    Session.Distinct (d.after texts).session.context := by
  induction texts generalizing d with
  | nil => exact h
  | cons text texts ih => exact ih ((treated text.1 text.2 d).distinct h)

/-- After any texts, a desk does with a text what its session does alone. A text that cannot be read changes nothing in
the session. The program of any other text is run as it was read and is put in front of the programs run unless it is
equal to the last of them, and its items go to the history exactly if all goes well. So the history consists of the
programs of the texts that went well, and no two neighbours among the programs run are equal. -/
theorem process_after (texts : List (Nat × String)) (fuel : Nat) (source : String) :
    let d := fresh.after texts
    ((d.process fuel source).1.session, (d.process fuel source).2) = d.session.process fuel source ∧
      Treated fuel source d (d.process fuel source).1 (d.process fuel source).2.2 ∧
      d.session.history = (fresh.successes texts).flatMap itemsOf ∧
      Session.Distinct d.session.context := by
  intro d
  have hd : Session.Distinct fresh.session.context := .nil
  obtain ⟨hs, ho⟩ := process_session fuel source d
  exact ⟨Prod.ext hs ho, treated fuel source d, history_after fresh texts, distinct_after hd texts⟩

end Desk

end Pseudocode
