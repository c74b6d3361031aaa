import Mathlib
import Pseudocode.Proofs.Step
/-!
# Jumps and the order of statements

Statements done in order leave behind a mark what follows it in its own list, and then what follows each
conditional statement around that list, outwards. `Passage` keeps the two apart, and `Tree.passingAmong` finds
them for the first mark with a label. They are what doing one statement after the other leaves
(`passes_passing`), and that is what a machine does in each step in which it neither jumps nor returns
(`passes_of_step`).

A jump goes on with less. It needs a mark that stands in a list, and drops all that follows outside of that
list (`jump_list`).
-/

namespace Pseudocode

/-- What is left behind a mark. -/
structure Passage where
  /-- What follows the mark in its list, if it is an item of one. -/
  own : Option (List Tree)
  /-- What follows the statements around that list, the innermost first. -/
  around : List Tree

theorem Tree.eq_mark_of_kind {t : Tree} (h : t.kind = .mark) : ∃ l, t = .mark l := by
  cases t <;> first | exact ⟨_, rfl⟩ | cases h

namespace Passage

/-- All that is left behind the mark. -/
def left (v : Passage) : List Tree :=
  v.own.getD [] ++ v.around

/-- The passage of a mark in a statement which `rest` follows in its list. -/
def followed (v : Passage) (rest : List Tree) : Tree → Passage
  | .mark _ => ⟨some rest, []⟩
  | _ => ⟨v.own, v.around ++ rest⟩

theorem followed_of_kind (v : Passage) (rest : List Tree) {t : Tree} (h : t.kind ≠ .mark) :
    v.followed rest t = ⟨v.own, v.around ++ rest⟩ := by
  cases t <;> first | rfl | exact absurd rfl h

end Passage

namespace Tree

mutual

/-- What is left of a tree behind its first mark with a label. -/
def passing (label : Tree) : Tree → Option Passage
  | mark l => if same l label then some ⟨Option.none, []⟩ else Option.none
  | list items => passingAmong label items
  | when _ body => passing label body
  | choose _ body other => (passing label body).or (passing label other)
  | _ => Option.none

/-- What is left of the items of a list behind their first mark with a label. -/
def passingAmong (label : Tree) : List Tree → Option Passage
  | [] => Option.none
  | t :: rest => ((passing label t).map (·.followed rest t)).or (passingAmong label rest)

end

mutual

/-- The labels of the marks in a tree. -/
def labels : Tree → List Tree
  | mark l => [l]
  | list items => labelsAmong items
  | when _ body => labels body
  | choose _ body other => labels body ++ labels other
  | _ => []

/-- The labels of the marks in some trees. -/
def labelsAmong : List Tree → List Tree
  | [] => []
  | t :: rest => labels t ++ labelsAmong rest

end

mutual

theorem isSome_passing (label t : Tree) : (passing label t).isSome = (labels t).any (same · label) := by
  cases t with
  | mark l =>
    rw [passing, labels]
    split <;> simp [*]
  | list items => rw [passing, labels, isSome_passingAmong label items]
  | when test body => rw [passing, labels, isSome_passing label body]
  | choose test body other =>
    rw [passing, labels, List.any_append, Option.isSome_or, isSome_passing label body, isSome_passing label other]
  | _ => rfl

/-- A label has a passage exactly when it has a mark. -/
theorem isSome_passingAmong (label : Tree) (items : List Tree) :
    (passingAmong label items).isSome = (labelsAmong items).any (same · label) := by
  cases items with
  | nil => rfl
  | cons t rest =>
    rw [passingAmong, labelsAmong, List.any_append, Option.isSome_or, Option.isSome_map, isSome_passing label t,
      isSome_passingAmong label rest]

end

/-- A property that the parts of lists and of conditional statements take over from the whole. -/
structure Inherited (I : Tree → Prop) : Prop where
  items {ts : List Tree} : I (list ts) → ∀ t ∈ ts, I t
  body {test body : Tree} : I (when test body) → I body
  chosen {test body other : Tree} : I (choose test body other) → I body
  other {test body other : Tree} : I (choose test body other) → I other

mutual

theorem own_passing {I : Tree → Prop} (hI : Inherited I) {label t : Tree} {v : Passage}
    (h : passing label t = some v) (ht : I t) : ∀ own, v.own = some own → ∀ s ∈ own, I s := by
  cases t with
  | mark l =>
    rw [passing] at h
    split at h <;> cases h
    nofun
  | list items =>
    rw [passing] at h
    exact own_passingAmong hI h (hI.items ht)
  | when test body =>
    rw [passing] at h
    exact own_passing hI h (hI.body ht)
  | choose test body other =>
    rw [passing, Option.or_eq_some_iff] at h
    rcases h with h | ⟨-, h⟩
    · exact own_passing hI h (hI.chosen ht)
    · exact own_passing hI h (hI.other ht)
  | _ => simp [passing] at h

/-- What follows a mark in its list is made of parts of the whole. -/
theorem own_passingAmong {I : Tree → Prop} (hI : Inherited I) {label : Tree} {items : List Tree} {v : Passage}
    (h : passingAmong label items = some v) (hi : ∀ t ∈ items, I t) : ∀ own, v.own = some own → ∀ s ∈ own, I s := by
  cases items with
  | nil => simp [passingAmong] at h
  | cons t rest =>
    simp only [passingAmong, Option.or_eq_some_iff, Option.map_eq_some_iff] at h
    rcases h with ⟨w, hp, rfl⟩ | ⟨-, h⟩
    · by_cases hk : t.kind = .mark
      · obtain ⟨l, rfl⟩ := eq_mark_of_kind hk
        rintro own ⟨⟩ s hs
        exact hi s (List.mem_cons_of_mem _ hs)
      · rw [Passage.followed_of_kind w rest hk]
        intro own ho
        exact own_passing hI hp (hi t List.mem_cons_self) own ho
    · exact own_passingAmong hI h fun u hu => hi u (List.mem_cons_of_mem t hu)

end

/-- A list leaves more behind a mark than its statement does: what follows the statement. -/
theorem left_followed {label t : Tree} {v : Passage} {rest : List Tree} (h : passing label t = some v) :
    (v.followed rest t).left = v.left ++ rest := by
  cases t with
  | mark l =>
    rw [passing] at h
    split at h <;> cases h
    simp [Passage.left, Passage.followed]
  | _ => simp [Passage.left, Passage.followed]

end Tree

namespace Machine

open Pseudocode.Tree Relation

/-! ## Statements in order -/

/-- One statement of a queue done in order: a conditional statement, and also a list, leaves in its place what
it chooses, and any statement can be over once it is done. -/
inductive Passes : List Tree → List Tree → Prop
  | done (s : Tree) (rest : List Tree) : Passes (s :: rest) rest
  | items (ts rest : List Tree) : Passes (.list ts :: rest) (ts ++ rest)
  | body (test body : Tree) (rest : List Tree) : Passes (.when test body :: rest) (body.statements ++ rest)
  | chosen (test body other : Tree) (rest : List Tree) :
      Passes (.choose test body other :: rest) (body.statements ++ rest)
  | other (test body other : Tree) (rest : List Tree) :
      Passes (.choose test body other :: rest) (other.statements ++ rest)

theorem passes_of_perform {env : Setting} {m m' : Machine} {s : Tree} {r : Result} (hs : s.kind ≠ .jump)
    (h : m.perform env s = .ok (r, m')) : Passes (s :: m.queue) m'.queue := by
  unfold perform at h
  split at h
  case h_1 | h_4 | h_13 =>
    obtain ⟨v, -, h⟩ := bind_eq_ok h
    cases h
    exact .done ..
  case h_2 test body =>
    obtain ⟨b, -, h⟩ := bind_eq_ok h
    split at h <;> cases h
    · rw [queueFirst_eq]; exact .body ..
    · exact .done ..
  case h_3 test body other =>
    obtain ⟨b, -, h⟩ := bind_eq_ok h
    split at h
    · cases h; rw [queueFirst_eq]; exact .chosen ..
    · split at h <;> cases h
      · rw [queueFirst_eq]; exact .other ..
      · exact .done ..
  case h_6 =>
    obtain ⟨v, -, h⟩ := bind_eq_ok h
    obtain ⟨s, -, h⟩ := bind_eq_ok h
    split at h <;> cases h <;> exact .done ..
  case h_7 => exact absurd rfl hs
  case h_9 => cases h; exact .items ..
  all_goals cases h; exact .done ..

/-- Whatever a machine does in a step, it does in order, unless it jumps or ends the program. -/
theorem passes_of_step {env : Setting} {m m' : Machine} {s : Tree} {rest : List Tree}
    (hq : m.queue = s :: rest) (hs : s.kind ≠ .jump) (h : m.step env = .running m')
    (hr : ∀ v, m'.result ≠ .returned v) : Passes m.queue m'.queue := by
  rw [step_eq hq] at h
  split at h
  case h_2 => cases h
  case h_1 m₁ he =>
    cases h
    obtain ⟨⟨r, m₂⟩, hp, hn⟩ := bind_eq_ok he
    have hm : m'.queue = m₂.queue := by
      cases r with
      | returned v =>
        obtain ⟨t, -, hn⟩ := bind_eq_ok hn
        cases hn
        exact absurd rfl (hr v)
      | value t => cases t <;> cases hn <;> rfl
    rw [hq, hm]
    exact passes_of_perform hs hp

theorem passes_statements (t : Tree) (rest : List Tree) :
    ReflTransGen Passes (t :: rest) (t.statements ++ rest) := by
  cases t with
  | list items => exact .single (.items items rest)
  | _ => exact .refl

mutual

/-- Doing the statements of a tree in order leads to its first mark with a label, with what is left behind
it. -/
theorem passes_passing {label t : Tree} {v : Passage} (rest : List Tree) (h : passing label t = some v) :
    ∃ l, same l label ∧ ReflTransGen Passes (t.statements ++ rest) (.mark l :: (v.left ++ rest)) := by
  -- On the recursion of `passing`; `rest` grows on the way in by what follows the statements around.
  cases t with
  | mark l =>
    simp only [passing] at h
    split at h
    case isTrue hl => cases h; exact ⟨l, hl, .refl⟩
    case isFalse => cases h
  | list items =>
    rw [passing] at h
    exact passes_passingAmong rest h
  | when test body =>
    obtain ⟨l, hl, hw⟩ := passes_passing rest (by simpa only [passing] using h)
    exact ⟨l, hl, .head (.body test body rest) hw⟩
  | choose test body other =>
    simp only [passing, Option.or_eq_some_iff] at h
    rcases h with h | ⟨-, h⟩
    · obtain ⟨l, hl, hw⟩ := passes_passing rest h
      exact ⟨l, hl, .head (.chosen test body other rest) hw⟩
    · obtain ⟨l, hl, hw⟩ := passes_passing rest h
      exact ⟨l, hl, .head (.other test body other rest) hw⟩
  | _ => simp [passing] at h

theorem passes_passingAmong {label : Tree} {items : List Tree} {v : Passage} (rest : List Tree)
    (h : passingAmong label items = some v) :
    ∃ l, same l label ∧ ReflTransGen Passes (items ++ rest) (.mark l :: (v.left ++ rest)) := by
  cases items with
  | nil => simp [passingAmong] at h
  | cons t more =>
    simp only [passingAmong, Option.or_eq_some_iff, Option.map_eq_some_iff] at h
    rcases h with ⟨w, hw, rfl⟩ | ⟨-, h⟩
    · obtain ⟨l, hl, hp⟩ := passes_passing (more ++ rest) hw
      rw [left_followed hw, List.append_assoc]
      exact ⟨l, hl, (passes_statements t (more ++ rest)).trans hp⟩
    · obtain ⟨l, hl, hp⟩ := passes_passingAmong rest h
      exact ⟨l, hl, .head (.done t (more ++ rest)) hp⟩

end

/-! ## Jumps -/

/-- What follows the part of a tree that a step leads to, if the tree is a list. -/
def followers (t : Tree) : Option PathStep → Option (List Tree)
  | some (.index i) => (items? t).map (List.drop (i.toNat + 1))
  | _ => .none

/-- What follows the end of a path. -/
def behind (t : Tree) (path : Path) : Except Fault (Option (List Tree)) :=
  (t.at? path.dropLast).map fun parent => followers parent path.getLast?

theorem behind_cons {t part : Tree} {s : PathStep} {path : Path} (hf : t.follow s = .ok part) (hp : path ≠ []) :
    behind t (s :: path) = behind part path := by
  unfold behind
  rw [List.dropLast_cons_of_ne_nil hp, List.getLast?_cons_of_ne_nil hp, at?, hf]
  rfl

/-- A path leads to a mark with the given passage. -/
def Leads (t : Tree) : Path → Passage → Prop
  | [], v => t.kind = .mark ∧ v.own = .none
  | s :: path, v => t.kind ≠ .mark ∧ behind t (s :: path) = .ok v.own

theorem place?_natCast {n i : Nat} (h : i < n) : place? n i = some i := by
  have hi : ¬ (i : Int) < 0 := by omega
  simp only [place?, if_neg hi]
  rw [if_pos (by omega), Int.toNat_natCast]

theorem Leads.field {t part : Tree} {f : String} {path : Path} {v : Passage} (ht : t.kind ≠ .mark)
    (hf : t.field? f = some part) (h : Leads part path v) :
    Leads t (.field f :: path) v := by
  refine ⟨ht, ?_⟩
  cases path with
  | nil => rw [h.2]; rfl
  | cons s path =>
    have hf : t.follow (.field f) = .ok part := by simp only [follow, hf]
    rw [behind_cons hf (List.cons_ne_nil s path), h.2]

theorem Leads.item {pre rest : List Tree} {t : Tree} {path : Path} {v : Passage} (h : Leads t path v) :
    Leads (.list (pre ++ t :: rest)) (.index pre.length :: path) (v.followed rest t) := by
  refine ⟨nofun, ?_⟩
  cases path with
  -- The item is the mark itself, so the jump goes on in this very list.
  | nil =>
    obtain ⟨l, rfl⟩ := eq_mark_of_kind h.1
    simp [behind, at?, Except.map, followers, items?, Passage.followed]
  | cons s path =>
    have hf : Tree.follow (.list (pre ++ t :: rest)) (.index pre.length) = .ok t := by
      have hp : place? (pre ++ t :: rest).length pre.length = some pre.length := place?_natCast (by simp)
      simp only [follow, Tree.item, hp, Option.bind_some, List.getElem?_append_right (Nat.le_refl _)]
      simp
    rw [behind_cons hf (List.cons_ne_nil s path), h.2, Passage.followed_of_kind v rest h.1]

theorem rel_or {α β : Type} {R : α → β → Prop} {a a' : Option α} {b b' : Option β} (h : Option.Rel R a b)
    (h' : Option.Rel R a' b') : Option.Rel R (a.or a') (b.or b') := by
  cases h with
  | none => exact h'
  | some h => exact .some h

theorem rel_field {t part : Tree} {f : String} (ht : t.kind ≠ .mark) (hf : t.field? f = some part)
    {a : Option Path} {b : Option Passage} (h : Option.Rel (Leads part) a b) :
    Option.Rel (Leads t) (a.map (.field f :: ·)) b := by
  cases h with
  | none => exact .none
  | some h => exact .some (h.field ht hf)

theorem rel_item {pre rest : List Tree} {t : Tree} {a : Option Path} {b : Option Passage}
    (h : Option.Rel (Leads t) a b) :
    Option.Rel (Leads (.list (pre ++ t :: rest))) (a.map (.index pre.length :: ·))
      (b.map (·.followed rest t)) := by
  cases h with
  | none => exact .none
  | some h => exact .some h.item

mutual

/-- The path to the first mark leads to its passage. -/
theorem leads_findMark (label t : Tree) : Option.Rel (Leads t) (findMark label t) (passing label t) := by
  cases t with
  | mark l =>
    rw [findMark, passing]
    split
    · exact .some ⟨rfl, rfl⟩
    · exact .none
  | list items =>
    rw [findMark, passing]
    exact leads_findMarkFrom label [] items
  | when test body =>
    rw [findMark, passing]
    exact rel_field (by nofun) rfl (leads_findMark label body)
  | choose test body other =>
    rw [findMark, passing]
    exact rel_or (rel_field (by nofun) rfl (leads_findMark label body))
      (rel_field (by nofun) rfl (leads_findMark label other))
  | _ => exact .none

theorem leads_findMarkFrom (label : Tree) (pre items : List Tree) :
    Option.Rel (Leads (.list (pre ++ items))) (findMarkFrom label pre.length items)
      (passingAmong label items) := by
  cases items with
  | nil => exact .none
  | cons t rest =>
    rw [findMarkFrom, passingAmong]
    have hr := leads_findMarkFrom label (pre ++ [t]) rest
    rw [List.append_assoc, List.length_append] at hr
    exact rel_or (rel_item (leads_findMark label t)) hr

end

/-- What a jump in a program does that is more than a mark. -/
theorem jump_eq {home : Tree} (hk : home.kind ≠ .mark) (label : Tree) (m : Machine) :
    m.jump home label =
      match passing label home with
      | .none => do .error (.markMissing (← label.show?))
      | some ⟨some own, _⟩ => .ok (nothing, { m with queue := own })
      | some ⟨.none, _⟩ => .error .markAlone := by
  have h := leads_findMark label home
  unfold jump
  generalize findMark label home = a at h
  generalize passing label home = b at h
  cases h with
  | none => rfl
  | @some path v h =>
    cases path with
    -- The empty path leads to a mark only.
    | nil => exact absurd h.1 hk
    | cons s path =>
      obtain ⟨own, around⟩ := v
      have hb := h.2
      unfold behind at hb
      cases hp : home.at? (s :: path).dropLast with
      | error f => rw [hp] at hb; cases hb
      | ok parent =>
        rw [hp] at hb
        cases hb
        simp only [hp, ok_bind]
        cases items? parent <;> rcases (s :: path).getLast? with _ | _ | _ <;> rfl

/-- What a jump in a list of statements does. -/
theorem jump_list (program : List Tree) (label : Tree) (m : Machine) :
    m.jump (.list program) label =
      match passingAmong label program with
      | .none => do .error (.markMissing (← label.show?))
      | some ⟨some own, _⟩ => .ok (nothing, { m with queue := own })
      | some ⟨.none, _⟩ => .error .markAlone := by
  have h := @jump_eq (.list program) (by nofun) label m
  rwa [passing] at h

theorem markMissing_fails (label : Tree) :
    ∃ f, (do .error (.markMissing (← label.show?)) : Effect) = .error f := by
  cases label.show? <;> exact ⟨_, rfl⟩

/-- A jump fails, whatever the machine, or it goes on with what follows the mark in its list. -/
theorem jump_cases (home label : Tree) :
    (∃ f, ∀ m : Machine, m.jump home label = .error f) ∨
      ∃ v own, passing label home = some v ∧ v.own = some own ∧
        ∀ m : Machine, m.jump home label = .ok (nothing, { m with queue := own }) := by
  obtain ⟨f, hf⟩ := markMissing_fails label
  by_cases hk : home.kind = .mark
  · obtain ⟨l, rfl⟩ := eq_mark_of_kind hk
    -- The path to a mark that is the whole program is empty, and counts as none.
    refine .inl ⟨f, fun m => ?_⟩
    unfold jump
    rw [findMark]
    cases same l label <;> exact hf
  · have hj := jump_eq hk label
    rcases hp : passing label home with _ | ⟨_ | own, around⟩ <;> simp only [hp] at hj
    · exact .inl ⟨f, fun m => (hj m).trans hf⟩
    · exact .inl ⟨.markAlone, hj⟩
    · exact .inr ⟨_, own, rfl, rfl, hj⟩

/-- A jump to a label that has a mark changes no variable and prints nothing. It goes on with what follows the
mark in its own list, and that is all that doing the statements in order would have left behind the mark only if
nothing follows the statements around that list. From a mark that is no item of a list it cannot go on. -/
theorem jump_continues_own_list (program : List Tree) (label : Tree)
    (hl : ∃ l ∈ labelsAmong program, same l label) (env : Setting) (he : env.home = .list program) (m : Machine)
    (rest : List Tree) (hq : m.queue = .jump label :: rest) :
    ∃ v, passingAmong label program = some v ∧
      (∃ l, same l label ∧ ReflTransGen Passes program (.mark l :: v.left)) ∧
      match v.own with
      | some own =>
        m.step env = .running { m with queue := own, result := nothing } ∧ (own = v.left ↔ v.around = [])
      | .none => m.step env = .failed .markAlone := by
  have hs : (passingAmong label program).isSome := by
    rw [isSome_passingAmong]
    exact List.any_eq_true.2 hl
  obtain ⟨⟨own, around⟩, hv⟩ := Option.isSome_iff_exists.1 hs
  have hw := passes_passingAmong [] hv
  simp only [List.append_nil] at hw
  have hj := jump_list program label { m with queue := rest }
  rw [hv] at hj
  refine ⟨_, hv, hw, ?_⟩
  rw [step_eq hq, effect, perform, he, hj]
  cases own with
  | none => rfl
  | some own => exact ⟨rfl, by simp [Passage.left]⟩

/-- A jump into the body of a conditional statement behind which another statement stands. -/
def jumpInside : List Tree :=
  [.jump (.int 1), .when (.comparison "==" [.int 1, .int 2]) (.list [.mark (.int 1), .print (.int 1)]),
    .print (.int 2)]

/-- The jump leaves the body to be finished and not the statement behind it. -/
theorem jump_continues_jumpInside :
    (∃ l ∈ labelsAmong jumpInside, same l (.int 1)) ∧
      ∃ v, passingAmong (.int 1) jumpInside = some v ∧ v.around = [.print (.int 2)] ∧
        (load (.list jumpInside) .empty).step ⟨.list jumpInside, false⟩ =
          .running { load (.list jumpInside) .empty with queue := [.print (.int 1)], result := nothing } := by
  have hl : ∃ l ∈ labelsAmong jumpInside, same l (.int 1) := ⟨.int 1, List.mem_cons_self, by cbv⟩
  have hv : passingAmong (.int 1) jumpInside = some ⟨some [.print (.int 1)], [.print (.int 2)]⟩ := by cbv
  obtain ⟨v, hp, -, h⟩ := jump_continues_own_list jumpInside (.int 1) hl ⟨.list jumpInside, false⟩ rfl
    (load (.list jumpInside) .empty) _ rfl
  cases hv.symm.trans hp
  exact ⟨hl, _, hv, rfl, h.1⟩

/-- A program in which a jump leaves other statements than doing them in order does. -/
theorem jumpInside_leaves_less :
    readProgram "goto instruction 1\nif 1 == 2, then\n @1\n print 1\nprint 2" = .ok jumpInside ∧
      ∃ v m, passingAmong (.int 1) jumpInside = some v ∧
        (load (.list jumpInside) .empty).step ⟨.list jumpInside, false⟩ = .running m ∧ m.queue ≠ v.left := by
  refine ⟨by cbv, ⟨some [.print (.int 1)], [.print (.int 2)]⟩,
    { load (.list jumpInside) .empty with queue := [.print (.int 1)], result := nothing }, by cbv, rfl, ?_⟩
  simp [Passage.left]

end Machine

end Pseudocode
