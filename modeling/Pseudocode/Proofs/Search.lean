import Mathlib.Data.List.Lex
import Pseudocode.Proofs.Occurrence

/-!
# The first mark with a label

A mark can stand anywhere in nested lists and conditional statements: `Tree.Marked` says where marks with a label
stand, by the relation `Tree.Holds` and not by a search. The search finds a place exactly if there is one
(`findMark_of_holds`), what stands there is such a mark (`marked_of_findMark`), and all others come later in document
order. Together these say which path a search gives: `findMark_first`.
-/

namespace Pseudocode

/-! ## Places in document order -/

theorem PathStep.Earlier.asymm {a b : PathStep} (h : a.Earlier b) : ¬b.Earlier a := by
  cases a with
  | index i =>
    cases b with
    | index j => exact Int.lt_asymm h
    | field g => exact absurd h id
  | field f =>
    cases b with
    | index j => exact absurd h id
    | field g =>
      obtain ⟨rfl, rfl⟩ := h
      rintro ⟨he, -⟩
      exact absurd he (by decide)

instance : Std.Asymm PathStep.Earlier :=
  ⟨fun _ _ => PathStep.Earlier.asymm⟩

theorem Path.Earlier.asymm {p q : Path} (h : Earlier p q) : ¬Earlier q p :=
  Std.Asymm.asymm (r := List.Lex PathStep.Earlier) p q h

namespace Tree

/-- A mark with a label stands at a place of a tree. -/
def Marked (label t : Tree) (p : Path) : Prop :=
  ∃ l, Holds t p (mark l) ∧ same l label = true

theorem Marked.under {label t c : Tree} {s : PathStep} {p : Path} (hp : Part t s c) (h : Marked label c p) :
    Marked label t (s :: p) := by
  obtain ⟨l, hh, hl⟩ := h
  exact ⟨l, .part hp hh, hl⟩

/-- What stands behind a last step is a part of what stands before it. -/
theorem Holds.parent {t u : Tree} {p : Path} {s : PathStep} (h : Holds t (p ++ [s]) u) :
    ∃ c, Holds t p c ∧ Part c s u := by
  induction p generalizing t with
  | nil =>
    cases h with
    | part hp hc =>
      cases hc
      exact ⟨t, .here t, hp⟩
  | cons r p ih =>
    cases h with
    | part hp hc =>
      obtain ⟨c, hh, hs⟩ := ih hc
      exact ⟨c, .part hp hh, hs⟩

/-- A part is reached by a place exactly if it is an item of a list. -/
theorem Part.index_iff {c u : Tree} {s : PathStep} (h : Part c s u) :
    (∃ i, s = .index i) ↔ ∃ items, c = list items := by
  cases h with
  | @item items i _ _ => exact iff_of_true ⟨i, rfl⟩ ⟨items, rfl⟩
  | body | chosen | other => exact iff_of_false nofun nofun

/-! ## The search -/

theorem findMarkFrom_some {label : Tree} {items : List Tree} {i : Nat} {p : Path}
    (h : findMarkFrom label i items = some p) :
    ∃ j t q, items[j]? = some t ∧ findMark label t = some q ∧ p = .index (i + j : Nat) :: q := by
  induction items generalizing i with
  | nil => simp [findMarkFrom] at h
  | cons t rest ih =>
    rw [findMarkFrom, Option.or_eq_some_iff, Option.map_eq_some_iff] at h
    rcases h with ⟨q, hq, rfl⟩ | ⟨-, h⟩
    · exact ⟨0, t, q, rfl, hq, rfl⟩
    · obtain ⟨j, u, q, hu, hq, rfl⟩ := ih h
      exact ⟨j + 1, u, q, by simpa using hu, hq, by rw [Nat.add_assoc, Nat.add_comm 1 j]⟩

/-- Where an item has such a mark, the search among the items ends with it or with an earlier item. -/
theorem findMarkFrom_of_item {label t : Tree} {items : List Tree} {j : Nat} {q : Path} (hj : items[j]? = some t)
    (hq : findMark label t = some q) (i : Nat) :
    ∃ k r, findMarkFrom label i items = some (.index (i + k : Nat) :: r) ∧ (k < j ∨ k = j ∧ r = q) := by
  induction items generalizing i j with
  | nil => cases hj
  | cons u rest ih =>
    cases hu : findMark label u with
    | some r =>
      refine ⟨0, r, by simp [findMarkFrom, hu], ?_⟩
      cases j with
      | zero =>
        cases hj
        exact .inr ⟨rfl, Option.some.inj (hu.symm.trans hq)⟩
      | succ j => exact .inl (Nat.succ_pos j)
    | none =>
      cases j with
      | zero =>
        cases hj
        cases hu.symm.trans hq
      | succ j =>
        obtain ⟨k, r, hr, hk⟩ := ih (by simpa using hj) (i + 1)
        refine ⟨k + 1, r, ?_, ?_⟩
        · simp [findMarkFrom, hu, hr, Nat.add_assoc, Nat.add_comm 1 k]
        · exact hk.imp Nat.succ_lt_succ fun h => ⟨congrArg Nat.succ h.1, h.2⟩

/-- A mark with the label is found, or one before it. -/
theorem findMark_of_holds {label t l : Tree} {p : Path} (h : Holds t p (mark l)) (hl : same l label = true) :
    ∃ q, findMark label t = some q ∧ (q = p ∨ Path.Earlier q p) := by
  generalize hu : mark l = u at h
  induction h with
  | here t =>
    subst hu
    exact ⟨[], by simp [findMark, hl], .inl rfl⟩
  | @part t c u s p hp _ ih =>
    obtain ⟨q, hq, ho⟩ := ih hu
    have hs : s :: q = s :: p ∨ Path.Earlier (s :: q) (s :: p) := ho.imp (congrArg (s :: ·)) .cons
    cases hp with
    | @item items i _ hi =>
      obtain ⟨k, r, hr, hk⟩ := findMarkFrom_of_item hi hq 0
      rw [Nat.zero_add] at hr
      refine ⟨_, by rw [findMark, hr], ?_⟩
      rcases hk with hk | ⟨rfl, rfl⟩
      · exact .inr (.rel (Int.ofNat_lt.2 hk))
      · exact hs
    | body => exact ⟨_, by simp [findMark, hq], hs⟩
    | chosen => exact ⟨_, by simp [findMark, hq], hs⟩
    | other test body =>
      -- The body comes first, and only where it has no such mark the other part is searched.
      cases hb : findMark label body with
      | some r => exact ⟨.field "do" :: r, by simp [findMark, hb], .inr (.rel ⟨rfl, rfl⟩)⟩
      | none => exact ⟨_, by simp [findMark, hb, hq], hs⟩

/-- The path that is found leads to a mark with the label. -/
theorem marked_of_findMark {label t : Tree} {p : Path} (h : findMark label t = some p) : Marked label t p := by
  cases t with
  | mark l =>
    rw [findMark] at h
    split at h <;> cases h
    exact ⟨l, .here _, ‹_›⟩
  | list items =>
    rw [findMark] at h
    obtain ⟨j, u, q, hj, hq, rfl⟩ := findMarkFrom_some h
    rw [Nat.zero_add]
    exact (marked_of_findMark hq).under (.item hj)
  | when test body =>
    rw [findMark, Option.map_eq_some_iff] at h
    obtain ⟨q, hq, rfl⟩ := h
    exact (marked_of_findMark hq).under (.body test body)
  | choose test body other =>
    rw [findMark, Option.or_eq_some_iff, Option.map_eq_some_iff, Option.map_eq_some_iff] at h
    rcases h with ⟨q, hq, rfl⟩ | ⟨-, q, hq, rfl⟩
    · exact (marked_of_findMark hq).under (.chosen test body other)
    · exact (marked_of_findMark hq).under (.other test body other)
  | _ => simp [findMark] at h
termination_by p.length

/-! ## What it finds -/

/-- A path leads to the first of the marks with a label. -/
structure FirstMark (label t : Tree) (p : Path) : Prop where
  /-- Following the path succeeds, and what stands there is a mark whose label is equal to the given one. -/
  found : ∃ l, t.at? p = .ok (mark l) ∧ same l label = true
  marked : Marked label t p
  /-- All other such marks come later. -/
  first : ∀ q, Marked label t q → q ≠ p → Path.Earlier p q ∧ ¬Path.Earlier q p
  /-- The last step is a place exactly if the mark is an item of a list. -/
  container : (∃ i, p.getLast? = some (.index i)) ↔ ∃ q s items, p = q ++ [s] ∧ t.at? q = .ok (list items)

theorem Marked.container {label t : Tree} {p : Path} (h : Marked label t p) :
    (∃ i, p.getLast? = some (.index i)) ↔ ∃ q s items, p = q ++ [s] ∧ t.at? q = .ok (list items) := by
  rcases List.eq_nil_or_concat p with rfl | ⟨q, s, rfl⟩
  · exact iff_of_false (by simp) (by simp)
  · obtain ⟨l, hh, -⟩ := h
    rw [List.concat_eq_append] at hh
    obtain ⟨c, hc, hs⟩ := hh.parent
    have hi := hs.index_iff
    constructor
    · rintro ⟨i, he⟩
      obtain ⟨items, rfl⟩ := hi.1 ⟨i, by simpa using he⟩
      exact ⟨q, s, items, List.concat_eq_append, hc.at?⟩
    · rintro ⟨q', s', items, he, ha⟩
      rw [List.concat_eq_append] at he
      obtain ⟨rfl, -⟩ := List.append_inj' he rfl
      rw [hc.at?] at ha
      obtain ⟨i, rfl⟩ := hi.2 ⟨items, Except.ok.inj ha⟩
      exact ⟨i, by simp⟩

/-- The search for a label gives no path exactly if no mark with an equal label stands in the lists and conditional
statements of a tree; and it gives a path exactly if this leads to such a mark, and to the first one in document
order. -/
theorem findMark_first (label t : Tree) :
    (findMark label t = Option.none ↔ ∀ p, ¬Marked label t p) ∧
      ∀ p, findMark label t = some p ↔ FirstMark label t p := by
  have hfirst : ∀ {p}, findMark label t = some p → ∀ q, Marked label t q → q ≠ p → Path.Earlier p q := by
    rintro p hp q ⟨l, hh, hl⟩ hne
    obtain ⟨p', hp', ho⟩ := findMark_of_holds hh hl
    cases hp.symm.trans hp'
    exact ho.resolve_left hne.symm
  refine ⟨⟨?_, ?_⟩, fun p => ⟨fun h => ?_, fun h => ?_⟩⟩
  · rintro hn p ⟨l, hh, hl⟩
    obtain ⟨q, hq, -⟩ := findMark_of_holds hh hl
    cases hn.symm.trans hq
  · intro hn
    exact Option.eq_none_iff_forall_ne_some.2 fun p hp => hn p (marked_of_findMark hp)
  · have hm := marked_of_findMark h
    obtain ⟨l, hh, hl⟩ := id hm
    refine ⟨⟨l, hh.at?, hl⟩, hm, fun q hq hne => ?_, hm.container⟩
    exact ⟨hfirst h q hq hne, (hfirst h q hq hne).asymm⟩
  · -- Two places cannot each come before the other, so there is only one first mark.
    obtain ⟨l, hh, hl⟩ := h.marked
    obtain ⟨q, hq, ho⟩ := findMark_of_holds hh hl
    by_cases hne : q = p
    · rw [hq, hne]
    · exact absurd (ho.resolve_left hne) (h.first q (marked_of_findMark hq) hne).2

-- A label may be written as a fraction, and marks that come later do not count.
example :
    findMark (.float 1.0) (.list [.when .none (.mark (.int 2)), .choose .none .none (.list [.mark (.int 1)]),
      .mark (.int 1)]) = some [.index 1, .field "alternate", .index 0] := by
  decide

end Tree

end Pseudocode
