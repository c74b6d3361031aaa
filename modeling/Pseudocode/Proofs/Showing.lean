import Mathlib
import Pseudocode.Proofs.Clearing

/-!
# Which programs can be shown

Hardly anything keeps a program that was read from being shown. Its whole numbers are short enough to be written, as
longer ones cannot be read (`short_readProgram`), and its operators have the operands that they need. But the other part
of a choice is shown only if it is a list, and a block of one statement is no list. `Tree.othersListed` says that no
choice in a tree has such a part, and then the tree can be shown; otherwise it cannot (`Item.shown`).

The history of a session holds items of programs that were read, whatever was done with the session
(`Reachable.history`). So `history` lists the entries up to the first that cannot be shown, and all of them exactly if
none has a choice with a single statement as its other part: `history_lists`.
-/

namespace Pseudocode

/-! ## Whole numbers that can be written -/

theorem digitValue_lt (c : Char) : (Text.digitValue? c).getD 0 < 10 := by
  unfold Text.digitValue?
  cases h : Text.digitZeros.find? fun first => first ≤ c.toNat && c.toNat < first + 10 with
  | none => simp
  | some first =>
    have hf := List.find?_some h
    simp only [Bool.and_eq_true, decide_eq_true_eq] at hf
    simp only [Option.map_some, Option.getD_some]
    omega

theorem numeral_lt (cs : List Char) : Text.numeral cs < 10 ^ cs.length := by
  have hf : ∀ (cs : List Char) (n : Nat),
      cs.foldl (fun n c => 10 * n + (Text.digitValue? c).getD 0) n < (n + 1) * 10 ^ cs.length := by
    intro cs
    induction cs with
    | nil => simp
    | cons c cs ih =>
      intro n
      have hc := digitValue_lt c
      have hs : 10 * n + (Text.digitValue? c).getD 0 + 1 ≤ (n + 1) * 10 := by omega
      rw [List.foldl_cons, List.length_cons, Nat.pow_succ', ← Nat.mul_assoc]
      exact Nat.lt_of_lt_of_le (ih _) (Nat.mul_le_mul_right _ hs)
  simpa [Text.numeral] using hf cs 0

namespace Tree

mutual

/-- No whole number in a tree is too long to be written. -/
def Short : Tree → Prop
  | int n => n.natAbs < longNumberBound
  | list items => ShortAll items
  | operation _ operands => ShortAll operands
  | comparison _ operands => ShortAll operands
  | assign _ value => Short value
  | when test body => Short test ∧ Short body
  | choose test body other => Short test ∧ Short body ∧ Short other
  | give value => Short value
  | print value => Short value
  | jump label => Short label
  | mark label => Short label
  | _ => True

def ShortAll : List Tree → Prop
  | [] => True
  | t :: rest => Short t ∧ ShortAll rest

end

theorem shortAll_iff {ts : List Tree} : ShortAll ts ↔ ∀ t ∈ ts, Short t := by
  induction ts with
  | nil => simp [ShortAll]
  | cons t ts ih => simp [ShortAll, ih]

end Tree

theorem short_numberOf {cs : List Char} {payload : Payload} (h : Piece.numberOf cs = .ok payload) :
    payload.tree.Short := by
  unfold Piece.numberOf at h
  dsimp only at h
  split at h
  · split at h
    case isTrue => cases h
    case isFalse hl =>
      cases h
      have hn := numeral_lt (cs.takeWhile (· != '.'))
      rw [Payload.tree, Tree.Short, Int.natAbs_natCast]
      unfold longNumberBound
      -- The power is too large to be worked out.
      generalize digitLimit = limit at hl ⊢
      exact Nat.lt_of_lt_of_le hn (Nat.pow_le_pow_right (by decide) (Nat.not_lt.1 hl))
  · cases h
    trivial

theorem short_token? {s : Scanner} {opening : Bool} {p : Piece} {t : Token} (h : s.token? opening p = .ok (some t)) :
    t.payload.tree.Short := by
  unfold Scanner.token? at h
  split at h
  case h_1 => cases h
  case h_2 =>
    rw [Piece.payload] at h
    split at h
    case isFalse => cases h; trivial
    case isTrue =>
      cases hv : Piece.numberOf p.text with
      | error f => rw [hv] at h; cases h
      | ok v =>
        rw [hv] at h
        cases h
        exact short_numberOf hv

theorem short_tokenize (line : Nat) (mark : Bool) (cs : List Char) :
    ∀ x ∈ (tokenize line mark cs).items, x.1.payload.tree.Short := by
  refine layOut_forall (Q := fun t => t.payload.tree.Short) (fun _ => trivial) (fun _ => trivial) (fun _ => trivial)
    mark _ _ ?_ _ _ _
  exact track_forall _ (fun p _ s opening t ht => short_token? ht) _ _

namespace Grammar

theorem short_extend {s t : Tree} (hs : s.Short) (ht : t.Short) : (extend s t).Short := by
  unfold extend
  split
  · rw [Tree.Short, Tree.shortAll_iff] at hs ⊢
    intro u hu
    rcases List.mem_append.1 hu with hu | hu
    · exact hs u hu
    · exact List.mem_singleton.1 hu ▸ ht
  · exact ⟨hs, ht, trivial⟩

theorem short_listOf {t : Tree} (h : t.Short) : (listOf t).Short := by
  unfold listOf
  split
  · exact h
  · exact ⟨h, trivial⟩

theorem one_lt_longNumberBound : 1 < longNumberBound := by
  have hd : digitLimit ≠ 0 := by decide
  unfold longNumberBound
  generalize digitLimit = limit at hd ⊢
  exact Nat.one_lt_pow hd (by decide)

/-- A rule builds its tree of the whole numbers that it is given, and of minus one. -/
theorem short_build (r : Rule) (ws : List Tree) (h : List.Forall₂ (fun _ v => v.Short) r.right ws) :
    (r.build ws).Short := by
  cases r with
  | command | stmtBare | stmtsOne | blockInline | number | string | compared =>
    obtain _ | ⟨hv, _ | _⟩ := h
    exact hv
  | programFirst | programExpression =>
    obtain _ | ⟨hv, _ | _⟩ := h
    exact short_listOf hv
  | input | stmtNewline =>
    obtain _ | ⟨hv, _ | ⟨_, _ | _⟩⟩ := h
    exact hv
  | programNewline | programCommand | stmtsMore =>
    obtain _ | ⟨hp, _ | ⟨ht, _ | _⟩⟩ := h
    exact short_extend hp ht
  | printEmpty | name | truth =>
    obtain _ | ⟨_, _ | _⟩ := h
    trivial
  | give | print | mark =>
    obtain _ | ⟨_, _ | ⟨hv, _ | _⟩⟩ := h
    exact hv
  | negation =>
    obtain _ | ⟨_, _ | ⟨he, _ | _⟩⟩ := h
    exact ⟨one_lt_longNumberBound, he, trivial⟩
  | group =>
    obtain _ | ⟨_, _ | ⟨he, _ | ⟨_, _ | _⟩⟩⟩ := h
    exact he
  | jump =>
    obtain _ | ⟨_, _ | ⟨_, _ | ⟨hl, _ | _⟩⟩⟩ := h
    exact hl
  | sum | difference | product | quotient | comparison =>
    obtain _ | ⟨ha, _ | ⟨_, _ | ⟨hb, _ | _⟩⟩⟩ := h
    exact ⟨ha, hb, trivial⟩
  | blockIndented =>
    obtain _ | ⟨_, _ | ⟨_, _ | ⟨hb, _ | ⟨_, _ | _⟩⟩⟩⟩ := h
    exact hb
  | assign =>
    obtain _ | ⟨_, _ | ⟨_, _ | ⟨_, _ | ⟨he, _ | _⟩⟩⟩⟩ := h
    exact he
  | when =>
    obtain _ | ⟨_, _ | ⟨ht, _ | ⟨_, _ | ⟨_, _ | ⟨hb, _ | _⟩⟩⟩⟩⟩ := h
    exact ⟨ht, hb⟩
  | choose =>
    obtain _ | ⟨_, _ | ⟨ht, _ | ⟨_, _ | ⟨_, _ | ⟨hb, _ | ⟨_, _ | ⟨ho, _ | _⟩⟩⟩⟩⟩⟩⟩ := h
    exact ⟨ht, hb, ho⟩

end Grammar

/-- The whole numbers of a program that was read are not too long to be written. -/
theorem short_readProgram {source : String} {program : List Tree} (h : readProgram source = .ok program) :
    ∀ t ∈ program, t.Short := by
  have hy := Reader.yields_of_programOf (readProgram_eq_ok h)
  have hv := hy.forall_values Grammar.short_build fun t ht => by
    obtain ⟨x, hx, rfl⟩ := List.mem_map.1 ht
    exact short_tokenize 1 true source.toList x hx
  obtain _ | ⟨hs, _ | _⟩ := hv
  exact Tree.shortAll_iff.1 hs

/-! ## Choices that can be shown -/

/-- What comes of showing something: a result if all choices in it can be shown, and the fault of such a choice if
not. -/
def Shown {α : Type} (listed : Bool) (x : Except Fault α) : Prop :=
  if listed then ∃ a, x = .ok a else x = .error .otherNotShown

section

variable {α β : Type} {x : Except Fault α}

theorem Shown.of_ok {a : α} (h : x = .ok a) : Shown true x :=
  ⟨a, h⟩

theorem Shown.bind {b c : Bool} {f : α → Except Fault β} (hx : Shown b x) (hf : ∀ a, Shown c (f a)) :
    Shown (b && c) (x >>= f) := by
  cases b with
  | true =>
    obtain ⟨a, rfl⟩ := hx
    exact hf a
  | false =>
    obtain rfl : x = .error .otherNotShown := hx
    exact rfl

theorem Shown.map {b : Bool} (hx : Shown b x) (f : α → β) : Shown b (x.map f) := by
  cases b with
  | true =>
    obtain ⟨a, rfl⟩ := hx
    exact ⟨f a, rfl⟩
  | false =>
    obtain rfl : x = .error .otherNotShown := hx
    exact rfl

end

namespace Tree

mutual

/-- Whether every choice in a tree has a list as its other part. -/
def othersListed : Tree → Bool
  | list items => allOthersListed items
  | when _ body => othersListed body
  | choose _ body other => othersListed body && (othersListed other && other.isList)
  | _ => true

def allOthersListed : List Tree → Bool
  | [] => true
  | t :: rest => othersListed t && allOthersListed rest

end

theorem shown_all {place : Place} {ts : List Tree} (h : ∀ t ∈ ts, Shown t.othersListed (t.render place)) :
    Shown (allOthersListed ts) (renderAll place ts) := by
  induction ts with
  | nil => exact .of_ok rfl
  | cons t ts ih =>
    have ht := h t List.mem_cons_self
    have hts := ih fun u hu => h u (List.mem_cons_of_mem t hu)
    rw [renderAll, allOthersListed, ← Bool.and_true (allOthersListed ts)]
    exact ht.bind fun s => hts.bind fun more => .of_ok rfl

theorem render_int {n : Int} (hn : (int n).Short) (place : Place) : ∃ s, (int n).render place = .ok s := by
  rw [Short] at hn
  rw [render, wholeText, if_pos hn]
  exact ⟨_, rfl⟩

theorem render_numeral {v : Tree} (hv : Numeral v) (hs : v.Short) (place : Place) : ∃ s, v.render place = .ok s := by
  cases hv with
  | whole n => exact render_int hs place
  | real => exact ⟨_, rfl⟩

theorem render_operation {a b : Tree} (op : String) (ha : ∃ s, a.render .alone = .ok s)
    (hb : ∃ s, b.render .alone = .ok s) (place : Place) : ∃ s, (operation op [a, b]).render place = .ok s := by
  obtain ⟨x, hx⟩ := ha
  obtain ⟨y, hy⟩ := hb
  simp only [render, renderAll, hx, hy]
  exact ⟨_, rfl⟩

theorem render_comparison {a b : Tree} (op : String) (ha : ∃ s, a.render .alone = .ok s)
    (hb : ∃ s, b.render .alone = .ok s) (place : Place) : ∃ s, (comparison op [a, b]).render place = .ok s := by
  obtain ⟨x, hx⟩ := ha
  obtain ⟨y, hy⟩ := hb
  simp only [render, renderAll, hx, hy]
  exact ⟨_, rfl⟩

theorem render_expression {e : Tree} (he : Expression e) (hs : e.Short) (place : Place) :
    ∃ s, e.render place = .ok s := by
  induction he generalizing place with
  | number h => exact render_numeral h hs place
  | truth | string | name => exact ⟨_, rfl⟩
  | negation _ ih => exact render_operation "*" (render_int hs.1 .alone) (ih hs.2.1 .alone) place
  | operation _ _ _ iha ihb => exact render_operation _ (iha hs.1 .alone) (ihb hs.2.1 .alone) place
  | comparison _ _ _ iha ihb => exact render_comparison _ (iha hs.1 .alone) (ihb hs.2.1 .alone) place

theorem render_test {t : Tree} (ht : Test t) (hs : t.Short) (place : Place) : ∃ s, t.render place = .ok s := by
  obtain ⟨ho, ha, hb⟩ := ht
  exact render_comparison _ (render_expression ha hs.1 .alone) (render_expression hb hs.2.1 .alone) place

theorem Body.isSomething {b : Tree} (h : Body b) : b.isSomething = true := by
  cases h with
  | one h => cases h <;> rfl
  | @many ss hl h =>
    cases ss with
    | nil => cases hl
    | cons => rfl

theorem shown_choose {test body other : Tree} (hb : Shown body.othersListed (body.render .inside))
    (ho : Shown other.othersListed (other.render .inside)) (hs : other.isSomething) (ht : ∃ s, test.render .alone = .ok s)
    (place : Place) : Shown (choose test body other).othersListed ((choose test body other).render place) := by
  obtain ⟨s, ht⟩ := ht
  simp only [render, hs, ht, othersListed, if_true]
  refine hb.bind fun b => ho.bind fun o => ?_
  cases other.isList with
  | true => exact .of_ok rfl
  | false => exact rfl

mutual

/-- A statement is shown if all choices in it can be shown. -/
theorem Statement.shown : ∀ {s : Tree}, Statement s → s.Short → ∀ place, Shown s.othersListed (s.render place)
  | _, .assign x he, hs, place => by
    obtain ⟨v, hv⟩ := render_expression he hs .alone
    rw [render, hv]
    exact .of_ok rfl
  | _, .when ht hb, hs, place => by
    obtain ⟨t, ht⟩ := render_test ht hs.1 .alone
    simp only [render, ht, othersListed]
    rw [← Bool.and_true (othersListed _)]
    exact (Body.shown hb hs.2).bind fun b => .of_ok rfl
  | _, .choose ht hb ho, hs, place =>
    shown_choose (Body.shown hb hs.2.1) (Body.shown ho hs.2.2) ho.isSomething (render_test ht hs.1 .alone) place
  | _, .give he, hs, place => by
    obtain ⟨v, hv⟩ := render_expression he hs .alone
    rw [render, hv]
    exact .of_ok rfl
  | _, .print he, hs, place => by
    obtain ⟨v, hv⟩ := render_expression he hs .alone
    rw [render, hv]
    exact .of_ok rfl
  | _, .printEmpty, _, _ => .of_ok rfl
  | _, .jump hl, hs, place => by
    obtain ⟨v, hv⟩ := render_numeral hl hs .alone
    rw [render, hv]
    exact .of_ok rfl
  | _, .mark hl, hs, place => by
    obtain ⟨v, hv⟩ := render_numeral hl hs .alone
    obtain ⟨w, hw⟩ := render_numeral hl hs .listed
    rw [render, hv, hw]
    split <;> exact .of_ok rfl

/-- What a conditional statement does is shown line by line. -/
theorem Body.shown : ∀ {b : Tree}, Body b → b.Short → Shown b.othersListed (b.render .inside)
  | _, .one h, hs => Statement.shown h hs .inside
  | _, .many _ h, hs => by
    rw [render, othersListed]
    exact (shown_all fun t ht => Statement.shown (h t ht) (shortAll_iff.1 hs t ht) .alone).map _

end

/-- An item of a program is shown if all choices in it can be shown. -/
theorem Item.shown {t : Tree} (h : Item t) (hs : t.Short) : Shown t.othersListed t.show? := by
  cases h with
  | statement h => exact h.shown hs .alone
  | expression h =>
    have hl : t.othersListed = true := by
      cases h with
      | number h => cases h <;> rfl
      | _ => rfl
    rw [hl]
    exact render_expression h hs .alone
  | lineEnds => exact .of_ok rfl

end Tree

/-- What was read is shown if all choices in it can be shown. -/
theorem shown_readProgram {source : String} {program : List Tree} (h : readProgram source = .ok program) :
    ∀ t ∈ program, Shown t.othersListed t.show? :=
  fun t ht => (readProgram_shaped h t ht).shown (short_readProgram h t ht)

/-! ## What histories hold -/

namespace Session

/-- The sessions that can come about: texts and programs are run, in any order, and all is forgotten now and then. -/
inductive Reachable : Session → Prop
  | fresh : Reachable fresh
  | process {s : Session} (h : Reachable s) (fuel : Nat) (source : String) : Reachable (s.process fuel source).1
  | evaluate {s : Session} (h : Reachable s) (fuel : Nat) (capture : Bool) (program : Tree) :
      Reachable (s.evaluate fuel capture program).1
  | clear {s : Session} (h : Reachable s) : Reachable s.clear

/-- A text adds to the history its own items, or nothing. -/
theorem history_process (s : Session) (fuel : Nat) (source : String) :
    (s.process fuel source).1.history = s.history ∨
      ∃ program, readProgram source = .ok program ∧ (s.process fuel source).1.history = s.history ++ program := by
  rw [process]
  cases hr : readProgram source with
  | error f => exact .inl rfl
  | ok program =>
    have hc := (carriedOut fuel program s).history
    split at hc
    · exact .inr ⟨program, rfl, hc⟩
    · exact .inl hc

/-- Every entry of a history is an item of a program that was read. -/
theorem Reachable.history {s : Session} (h : Reachable s) :
    ∀ t ∈ s.history, ∃ source program, readProgram source = .ok program ∧ t ∈ program := by
  induction h with
  | fresh => simp [Session.fresh]
  | @process s _ fuel source ih =>
    intro t ht
    rcases history_process s fuel source with he | ⟨program, hr, he⟩
    · exact ih t (he ▸ ht)
    · rw [he] at ht
      rcases List.mem_append.1 ht with ht | ht
      · exact ih t ht
      · exact ⟨source, program, hr, ht⟩
  | evaluate _ _ _ _ ih => exact ih
  | clear => simp [Session.clear]

theorem Reachable.shown {s : Session} (h : Reachable s) : ∀ t ∈ s.history, Shown t.othersListed t.show? := by
  intro t ht
  obtain ⟨source, program, hr, hm⟩ := h.history t ht
  exact shown_readProgram hr t hm

theorem Reachable.processAll {s : Session} (h : Reachable s) (fuel : Nat) (texts : List String) :
    Reachable (s.processAll fuel texts).1 := by
  induction texts generalizing s with
  | nil => exact h
  | cons text texts ih => exact ih (h.process fuel text)

end Session

namespace Console

open Session

variable {fuel : Nat}

theorem flush_reachable {c : Console} (h : c.session.Reachable) (output : String) :
    (c.flush fuel output).console.session.Reachable := by
  rw [(flush_rests c output).2]
  exact h.processAll fuel _

theorem enter_reachable {c : Console} (h : c.session.Reachable) (line : String) :
    (c.enter fuel line).console.session.Reachable := by
  unfold enter
  split
  · exact h
  · split
    · exact h
    · dsimp only
      split
      · exact h.process fuel line
      · exact flush_reachable (c := ⟨_, c.kept, c.conditional⟩) (h.process fuel line) _

theorem showHistory_reachable {c : Console} (h : c.session.Reachable) :
    (c.showHistory fuel).console.session.Reachable := by
  unfold showHistory
  dsimp only
  split
  · exact h
  · exact flush_reachable h _

/-- The session of a console stays one that can come about. -/
theorem react_reachable {c : Console} (h : c.session.Reachable) (e : Event) :
    (c.react fuel e).console.session.Reachable := by
  cases e with
  | ended => exact h
  | interrupt => exact h
  | line line =>
    rw [react_line]
    split
    · exact h
    split
    · exact flush_reachable (c := ⟨_, c.kept, c.conditional⟩) h.clear _
    split
    · exact showHistory_reachable h
    split
    · split
      · exact h
      · exact flush_reachable h _
    · exact enter_reachable h line

theorem after?_reachable {c c' : Console} (h : c.session.Reachable) {events : List Event}
    (ha : c.after? fuel events = some c') : c'.session.Reachable := by
  induction events generalizing c with
  | nil =>
    cases ha
    exact h
  | cons e events ih =>
    simp only [after?] at ha
    split at ha
    · cases ha
    · exact ih (react_reachable h e) ha

/-! ## Listed histories -/

/-- Texts as numbered lines, from a number on. -/
def numbered : Nat → List String → String
  | _, [] => ""
  | i, text :: rest => toString i ++ "." ++ (if i < 10 then "  " else " ") ++ text ++ "\n" ++ numbered (i + 1) rest

/-- The entries up to the first that cannot be shown are listed. -/
theorem listing_eq {entries : List Tree} (h : ∀ t ∈ entries, Shown t.othersListed t.show?) (i : Nat) :
    ∃ texts, List.Forall₂ (fun t text => t.show? = .ok text) (entries.takeWhile Tree.othersListed) texts ∧
      listing i entries =
        (numbered i texts, if entries.all Tree.othersListed then none else some .otherNotShown) := by
  induction entries generalizing i with
  | nil => exact ⟨[], .nil, rfl⟩
  | cons t entries ih =>
    have ht := h t List.mem_cons_self
    obtain ⟨texts, hs, hl⟩ := ih (fun u hu => h u (List.mem_cons_of_mem t hu)) (i + 1)
    cases ho : t.othersListed with
    | false =>
      rw [ho] at ht
      have hf : t.show? = .error .otherNotShown := ht
      refine ⟨[], by simp [ho], ?_⟩
      simp [listing, hf, ho, numbered]
    | true =>
      rw [ho] at ht
      obtain ⟨text, hk⟩ : ∃ text, t.show? = .ok text := ht
      refine ⟨text :: texts, ?_, ?_⟩
      · rw [List.takeWhile_cons, ho]
        exact .cons hk hs
      · simp [listing, hk, hl, ho, numbered]

variable (fuel)

/-- An item of a program that was read can be shown if and only if every choice in it has a list as its other part.
Wherever `history` is typed, the entries of the history are listed with their numbers up to the first that cannot be
shown. If there is none, what the lines kept print comes next, and otherwise only the fault. -/
theorem history_lists (s : Session) (hs : s.Reachable) (events : List Event) (c : Console)
    (hc : (on s).after? fuel events = some c) (line : String) (hl : command line = "history") :
    (∀ source program, readProgram source = .ok program → ∀ t ∈ program,
        ((∃ text, t.show? = .ok text) ↔ t.othersListed = true) ∧
          (t.othersListed = false → t.show? = .error .otherNotShown)) ∧
      ∃ texts, List.Forall₂ (fun t text => t.show? = .ok text) (c.session.history.takeWhile Tree.othersListed) texts ∧
        (c.react fuel (.line line)).output = "\nValid command history:\n" ++ numbered 1 texts ++
          if c.session.history.all Tree.othersListed then String.join (c.session.processAll fuel (again c.kept)).2
          else "Error: " ++ Fault.otherNotShown.message ++ "\n" := by
  constructor
  · intro source program hr t ht
    have hshown := shown_readProgram hr t ht
    cases ho : t.othersListed with
    | true =>
      rw [ho] at hshown
      exact ⟨iff_of_true hshown rfl, by simp⟩
    | false =>
      rw [ho] at hshown
      have hf : t.show? = .error .otherNotShown := hshown
      exact ⟨by simp [hf], fun _ => hf⟩
  · obtain ⟨texts, hs, hlist⟩ := listing_eq (after?_reachable hs hc).shown 1
    refine ⟨texts, hs, ?_⟩
    rw [react_line, if_neg (by simp [hl]), if_neg (by simp [hl]), if_pos hl, showHistory, hlist]
    cases c.session.history.all Tree.othersListed with
    | true =>
      have hf := flush_eq fuel c.session c.kept ("\nValid command history:\n" ++ numbered 1 texts)
      exact congrArg Reaction.output hf
    | false => simp [String.append_assoc]

/-- A choice between one statement and a list of two. -/
def listedChoice : Tree :=
  .choose (.comparison "==" [.int 1, .int 2]) (.print (.int 1)) (.list [.mark (.int 1), .print (.text "\"b\"")])

def listedText : String :=
  "if 1 == 2, then print 1 else\n @1\n print \"b\""

/-- The session after the text of that choice. -/
def remembering : Session :=
  ⟨.empty, [.list [listedChoice]], [listedChoice], false⟩

theorem history_lists_choice :
    remembering.Reachable ∧ command " History" = "history" ∧
      ∃ text, listedChoice.show? = .ok text ∧
        ((on remembering).react 4 (.line " History")).output =
          "\nValid command history:\n1.  " ++ text ++ "\n" := by
  have hr : readProgram listedText = .ok [listedChoice] := by cbv
  have hp : (Session.fresh.process 4 listedText).1 = remembering := by
    simp only [Session.process, hr]
    cbv
  have hs : remembering.Reachable := hp ▸ .process .fresh 4 listedText
  have hl : command " History" = "history" := by cbv
  obtain ⟨-, texts, hshown, hout⟩ := history_lists 4 remembering hs [] (on remembering) rfl " History" hl
  have ht : listedChoice.othersListed = true := rfl
  simp only [on, remembering, List.takeWhile_cons, ht, if_true, List.takeWhile_nil] at hshown
  obtain _ | ⟨hk, _ | _⟩ := hshown
  refine ⟨hs, hl, _, hk, hout.trans ?_⟩
  have h1 : toString 1 = "1" := rfl
  simp [on, remembering, ht, numbered, again, Session.processAll, h1, ← String.append_assoc]

/-- A choice between two single statements. -/
def singleChoice : Tree :=
  .choose (.comparison "<" [.int 1, .int 2]) (.mark (.int 1)) (.mark (.int 2))

/-- A program with a statement behind `else` can be read and run, but not shown, and `history` lists no entry. -/
theorem history_unlisted :
    let source := "if 1 < 2, then @1 else @2"
    let s := (Session.fresh.process 4 source).1
    readProgram source = .ok [singleChoice] ∧ singleChoice.show? = .error .otherNotShown ∧
      s.Reachable ∧ s.history = [singleChoice] ∧
      ((on s).react 4 (.line "history")).output =
        "\nValid command history:\nError: " ++ Fault.otherNotShown.message ++ "\n" := by
  intro source s
  have hr : readProgram source = .ok [singleChoice] := by cbv
  have hf : singleChoice.show? = .error .otherNotShown := shown_readProgram hr singleChoice List.mem_cons_self
  have hs : s = ⟨.empty, [.list [singleChoice]], [singleChoice], false⟩ := by
    simp only [s, Session.process, hr]
    cbv
  have hc : command "history" = "history" := by cbv
  refine ⟨hr, hf, .process .fresh 4 source, by rw [hs], ?_⟩
  rw [hs, react_line, if_neg (by simp [hc]), if_neg (by simp [hc]), if_pos hc]
  simp [on, showHistory, listing, hf]

end Console

end Pseudocode
