import Mathlib.Data.List.Nodup
import Mathlib.Data.List.Perm.Subperm
import Pseudocode.Proofs.Direct
import Pseudocode.Proofs.Jump

/-!
# Where the statements of a queue stand

Every statement in the queue of a machine stands somewhere in the program that it runs. `Tree.Holds` says what
stands where, `Tree.occurrences` lists all places for statements, and `Path.Earlier` is the order in which they
are written.

A queue is `Drawn` from a program if its statements stand at places of the program, one behind the other, and none
in another. Whatever a step does to the queue (`goes_of_step`) keeps this (`Drawn.goes`), jumps included, so the
queue of a run never has more statements than the program has places for them (`queue_drawn_from_program`).
-/

namespace Pseudocode

/-! ## Document order -/

/-- One step leads to an earlier part of a tree than another. -/
def PathStep.Earlier : PathStep → PathStep → Prop
  | .index i, .index j => i < j
  | .field f, .field g => f = "do" ∧ g = "alternate"
  | _, _ => False

theorem PathStep.Earlier.irrefl (s : PathStep) : ¬ s.Earlier s := by
  cases s with
  | index i => exact Int.lt_irrefl i
  | field f =>
    rintro ⟨rfl, h⟩
    exact absurd h (by decide)

namespace Path

/-- Document order: a statement comes before all that stands in it. -/
def Earlier (p q : Path) : Prop :=
  List.Lex PathStep.Earlier p q

/-- The paths part, and the first of them takes the earlier way. -/
inductive Apart : Path → Path → Prop
  | here {a b : PathStep} (h : a.Earlier b) (p q : Path) : Apart (a :: p) (b :: q)
  | deeper (s : PathStep) {p q : Path} (h : Apart p q) : Apart (s :: p) (s :: q)

namespace Apart

variable {p q : Path}

theorem earlier (h : Apart p q) : Earlier p q := by
  induction h with
  | here h p q => exact .rel h
  | deeper s _ ih => exact .cons ih

/-- Neither path leads to a place inside that of the other. -/
theorem not_inside (h : Apart p q) : ¬ p <+: q ∧ ¬ q <+: p := by
  induction h with
  | here h p q =>
    constructor <;> intro hp <;> obtain ⟨rfl, -⟩ := List.cons_prefix_cons.1 hp <;> exact h.irrefl _
  | deeper s _ ih => simpa only [List.cons_prefix_cons, true_and] using ih

theorem append_left (h : Apart p q) (r : Path) : Apart (p ++ r) q := by
  induction h with
  | here h p q => exact .here h (p ++ r) q
  | deeper s _ ih => exact .deeper s ih

theorem append_same (h : Apart p q) (r : Path) : Apart (r ++ p) (r ++ q) := by
  induction r with
  | nil => exact h
  | cons s r ih => exact .deeper s ih

end Apart

end Path

/-! ## Places for statements -/

namespace Tree

/-- A statement, or a list, and what stands in it one step further. -/
inductive Part : Tree → PathStep → Tree → Prop
  | item {items : List Tree} {i : Nat} {t : Tree} (h : items[i]? = some t) : Part (list items) (.index i) t
  | body (test body : Tree) : Part (when test body) (.field "do") body
  | chosen (test body other : Tree) : Part (choose test body other) (.field "do") body
  | other (test body other : Tree) : Part (choose test body other) (.field "alternate") other

/-- A tree has another one at a place for statements, or is it. -/
inductive Holds : Tree → Path → Tree → Prop
  | here (t : Tree) : Holds t [] t
  | part {t c u : Tree} {s : PathStep} {p : Path} (h : Part t s c) (hc : Holds c p u) : Holds t (s :: p) u

namespace Holds

variable {t u w : Tree} {p q : Path} {s : PathStep}

theorem of_part (h : Part t s u) : Holds t [s] u :=
  .part h (.here u)

theorem trans (h : Holds t p u) (h' : Holds u q w) : Holds t (p ++ q) w := by
  induction h with
  | here t => exact h'
  | part hp _ ih => exact .part hp (ih h')

theorem snoc (h : Holds t p u) (h' : Part u s w) : Holds t (p ++ [s]) w :=
  h.trans (of_part h')

end Holds

theorem Part.follow {t c : Tree} {s : PathStep} (h : Part t s c) : t.follow s = .ok c := by
  cases h with
  | @item items i _ h =>
    have hi : i < items.length := (List.getElem?_eq_some_iff.1 h).1
    simp only [Tree.follow, Tree.item, Machine.place?_natCast hi, Option.bind_some, h]
  | body | chosen | other => rfl

theorem Holds.at? {t u : Tree} {p : Path} (h : Holds t p u) : t.at? p = .ok u := by
  induction h with
  | here t => rfl
  | part hp _ ih =>
    rw [Tree.at?, hp.follow]
    exact ih

/-- The place of a part and the places in it. -/
def under (s : PathStep) (t : Tree) (inner : List (Path × Tree)) : List (Path × Tree) :=
  ([s], t) :: inner.map fun o => (s :: o.1, o.2)

mutual

/-- All places for statements inside a tree, with what stands there: the items of lists, and the parts of
conditional statements. -/
def occurrences : Tree → List (Path × Tree)
  | list items => occurrencesFrom 0 items
  | when _ body => under (.field "do") body (occurrences body)
  | choose _ body other =>
    under (.field "do") body (occurrences body) ++ under (.field "alternate") other (occurrences other)
  | _ => []

/-- The places for statements in the items of a list from place `i` on. -/
def occurrencesFrom (i : Nat) : List Tree → List (Path × Tree)
  | [] => []
  | t :: rest => under (.index i) t (occurrences t) ++ occurrencesFrom (i + 1) rest

end

theorem under_subset_occurrencesFrom {items : List Tree} {j : Nat} {t : Tree} (h : items[j]? = some t) (i : Nat) :
    under (.index (i + j : Nat)) t (occurrences t) ⊆ occurrencesFrom i items := by
  induction items generalizing i j with
  | nil => cases h
  | cons u rest ih =>
    rw [occurrencesFrom]
    cases j with
    | zero =>
      cases h
      exact List.subset_append_left _ _
    | succ j =>
      have hr := ih (by simpa using h) (i + 1)
      rw [Nat.add_assoc, Nat.add_comm 1 j] at hr
      exact List.Subset.trans hr (List.subset_append_right _ _)

theorem Part.under_subset {t c : Tree} {s : PathStep} (h : Part t s c) :
    under s c (occurrences c) ⊆ occurrences t := by
  cases h with
  | item h =>
    have hu := under_subset_occurrencesFrom h 0
    rwa [Nat.zero_add] at hu
  | body => exact List.Subset.refl _
  | chosen => exact List.subset_append_left _ _
  | other => exact List.subset_append_right _ _

/-- Every place inside a tree is listed. -/
theorem Holds.mem_occurrences {t u : Tree} {p : Path} (h : Holds t p u) (hp : p ≠ []) : (p, u) ∈ occurrences t := by
  induction h with
  | here t => exact absurd rfl hp
  | @part t c u s p h hc ih =>
    apply h.under_subset
    cases p with
    | nil =>
      cases hc
      exact List.mem_cons_self
    | cons r p => exact List.mem_cons_of_mem _ (List.mem_map_of_mem (ih (List.cons_ne_nil r p)))

theorem length_under (s : PathStep) (t : Tree) (inner : List (Path × Tree)) :
    (under s t inner).length = 1 + inner.length := by
  simp [under, Nat.add_comm]

mutual

theorem length_occurrences (t : Tree) : 1 + (occurrences t).length = positions t := by
  cases t with
  | list items => rw [occurrences, positions, length_occurrencesFrom 0 items]
  | when test body => rw [occurrences, positions, length_under, length_occurrences body]
  | choose test body other =>
    rw [occurrences, positions, List.length_append, length_under, length_under, length_occurrences body,
      length_occurrences other, Nat.add_assoc]
  | _ => rfl

/-- There are as many places as `positionsAll` counts. -/
theorem length_occurrencesFrom (i : Nat) (items : List Tree) :
    (occurrencesFrom i items).length = positionsAll items := by
  cases items with
  | nil => rfl
  | cons t rest =>
    rw [occurrencesFrom, positionsAll, List.length_append, length_under, length_occurrences t,
      length_occurrencesFrom (i + 1) rest]

end

/-- The places of the statements that a tree at a place stands for. -/
def statementsAt (p : Path) : Tree → List (Path × Tree)
  | list items => items.mapIdx fun i t => (p ++ [.index i], t)
  | t => [(p, t)]

theorem map_statementsAt (p : Path) (t : Tree) : (statementsAt p t).map Prod.snd = t.statements := by
  cases t with
  | list items => exact List.ext_getElem (by simp [statementsAt, statements]) (by simp [statementsAt, statements])
  | _ => rfl

theorem mem_statementsAt {p : Path} {t : Tree} {o : Path × Tree} (h : o ∈ statementsAt p t) :
    ∃ q, o.1 = p ++ q ∧ Holds t q o.2 := by
  cases t with
  | list items =>
    obtain ⟨i, hi, rfl⟩ := List.mem_mapIdx.1 h
    exact ⟨_, rfl, .of_part (.item (List.getElem?_eq_getElem hi))⟩
  | _ =>
    obtain rfl := List.mem_singleton.1 h
    exact ⟨[], (List.append_nil p).symm, .here _⟩

theorem pairwise_statementsAt (p : Path) (t : Tree) :
    (statementsAt p t).Pairwise fun a b => Path.Apart a.1 b.1 := by
  cases t with
  | list items =>
    rw [statementsAt, List.pairwise_iff_getElem]
    intro i j hi hj hij
    simp only [List.getElem_mapIdx]
    have hs : PathStep.Earlier (.index i) (.index j) := Int.ofNat_lt.2 hij
    exact Path.Apart.append_same (.here hs [] []) p
  | _ => exact List.pairwise_singleton _ _

mutual

theorem holds_own_passing {label t : Tree} {v : Passage} (h : passing label t = some v) {own : List Tree}
    (ho : v.own = some own) : ∃ p pre, Holds t p (list (pre ++ own)) := by
  cases t with
  | mark l =>
    rw [passing] at h
    split at h <;> cases h
    cases ho
  | list items =>
    rw [passing] at h
    exact holds_own_passingAmong [] h ho
  | when test body =>
    rw [passing] at h
    obtain ⟨p, pre, hp⟩ := holds_own_passing h ho
    exact ⟨_, pre, .part (.body test body) hp⟩
  | choose test body other =>
    rw [passing, Option.or_eq_some_iff] at h
    rcases h with h | ⟨-, h⟩
    · obtain ⟨p, pre, hp⟩ := holds_own_passing h ho
      exact ⟨_, pre, .part (.chosen test body other) hp⟩
    · obtain ⟨p, pre, hp⟩ := holds_own_passing h ho
      exact ⟨_, pre, .part (.other test body other) hp⟩
  | _ => simp [passing] at h

/-- What follows a mark in its list is the rest of a list that stands in the whole. -/
theorem holds_own_passingAmong {label : Tree} (before : List Tree) {items : List Tree} {v : Passage}
    (h : passingAmong label items = some v) {own : List Tree} (ho : v.own = some own) :
    ∃ p pre, Holds (list (before ++ items)) p (list (pre ++ own)) := by
  cases items with
  | nil => simp [passingAmong] at h
  | cons t rest =>
    simp only [passingAmong, Option.or_eq_some_iff, Option.map_eq_some_iff] at h
    rcases h with ⟨w, hp, rfl⟩ | ⟨-, h⟩
    · by_cases hk : t.kind = .mark
      · obtain ⟨l, rfl⟩ := eq_mark_of_kind hk
        cases ho
        exact ⟨[], before ++ [mark l], by simpa using Holds.here _⟩
      · rw [Passage.followed_of_kind w rest hk] at ho
        obtain ⟨p, pre, hh⟩ := holds_own_passing hp ho
        exact ⟨_, pre, .part (.item (i := before.length) (by simp)) hh⟩
    · have hr := holds_own_passingAmong (before ++ [t]) h ho
      rwa [List.append_assoc] at hr

end

theorem eq_jump_of_kind {t : Tree} (h : t.kind = .jump) : ∃ l, t = .jump l := by
  cases t <;> first | exact ⟨_, rfl⟩ | cases h

end Tree

namespace Machine

open Pseudocode.Tree

/-! ## What a step does to the queue -/

/-- A step does its statement in order, or jumps, or ends the program. -/
inductive Goes (home : Tree) : List Tree → List Tree → Prop
  | passes {q q' : List Tree} (h : Passes q q') : Goes home q q'
  | jumps {label : Tree} {v : Passage} {own : List Tree} (rest : List Tree) (h : passing label home = some v)
      (ho : v.own = some own) : Goes home (.jump label :: rest) own
  | stops (q : List Tree) : Goes home q []

theorem note_queue {r : Result} {m m' : Machine} (h : m.note r = .ok m') : m'.queue = [] ∨ m'.queue = m.queue := by
  cases r with
  | returned v =>
    obtain ⟨s, -, h⟩ := bind_eq_ok h
    cases h
    exact .inl rfl
  | value t =>
    obtain ⟨captured, hn⟩ := note_value t m
    cases hn.symm.trans h
    exact .inr rfl

theorem goes_of_perform {env : Setting} {m m' : Machine} {s : Tree} {r : Result}
    (h : m.perform env s = .ok (r, m')) : Goes env.home (s :: m.queue) m'.queue := by
  by_cases hs : s.kind = .jump
  · obtain ⟨label, rfl⟩ := eq_jump_of_kind hs
    rw [perform] at h
    rcases jump_cases env.home label with ⟨f, hf⟩ | ⟨v, own, hv, ho, hj⟩
    · cases (hf m).symm.trans h
    · cases (hj m).symm.trans h
      exact .jumps m.queue hv ho
  · exact .passes (passes_of_perform hs h)

theorem goes_of_step {env : Setting} {m m' : Machine} (h : m.step env = .running m') :
    Goes env.home m.queue m'.queue := by
  cases hq : m.queue with
  | nil =>
    unfold step at h
    rw [hq] at h
    cases h
  | cons s rest =>
    rw [step_eq hq] at h
    split at h <;> cases h
    case h_1 he =>
      obtain ⟨⟨r, m₁⟩, hp, hn⟩ := bind_eq_ok he
      rcases note_queue hn with hm | hm
      · rw [hm]; exact .stops _
      · rw [hm]; exact goes_of_perform hp

/-! ## Queues drawn from a program -/

/-- The statements of a queue stand at places inside a tree, one behind the other, and none in another. -/
def Drawn (home : Tree) (queue : List Tree) : Prop :=
  ∃ os : List (Path × Tree), os.map Prod.snd = queue ∧ (∀ o ∈ os, o.1 ≠ [] ∧ Holds home o.1 o.2) ∧
    os.Pairwise fun a b => Path.Apart a.1 b.1

namespace Drawn

variable {home : Tree} {queue rest : List Tree}

/-- The rest of a list that stands in the tree. -/
theorem of_list {p : Path} {pre own : List Tree} (h : Holds home p (.list (pre ++ own))) : Drawn home own := by
  refine ⟨(statementsAt p (.list (pre ++ own))).drop pre.length, ?_, ?_, ?_⟩
  · rw [List.map_drop, map_statementsAt]
    exact List.drop_left
  · intro o ho
    obtain ⟨i, hi, rfl⟩ := List.mem_mapIdx.1 (List.mem_of_mem_drop ho)
    exact ⟨by simp, h.snoc (.item (List.getElem?_eq_getElem hi))⟩
  · exact (pairwise_statementsAt p _).sublist (List.drop_sublist _ _)

theorem tail {s : Tree} (h : Drawn home (s :: rest)) : Drawn home rest := by
  obtain ⟨os, hq, hh, ha⟩ := h
  refine ⟨os.tail, ?_, fun o ho => hh o (List.mem_of_mem_tail ho), ha.tail⟩
  rw [List.map_tail, hq]
  rfl

/-- The statements of something that stands in the first statement, in its place. -/
theorem replace {s c : Tree} {q : Path} (h : Drawn home (s :: rest)) (hc : Holds s q c) :
    Drawn home (c.statements ++ rest) := by
  obtain ⟨os, hq, hh, ha⟩ := h
  cases os with
  | nil => cases hq
  | cons o os =>
    obtain ⟨p, s⟩ := o
    cases hq
    obtain ⟨hp, hs⟩ := hh (p, s) List.mem_cons_self
    obtain ⟨ha, hr⟩ := List.pairwise_cons.1 ha
    refine ⟨statementsAt (p ++ q) c ++ os, by rw [List.map_append, map_statementsAt], ?_, ?_⟩
    · intro o ho
      rcases List.mem_append.1 ho with ho | ho
      · obtain ⟨r, he, hw⟩ := mem_statementsAt ho
        rw [he]
        exact ⟨by simp [hp], (hs.trans hc).trans hw⟩
      · exact hh o (List.mem_cons_of_mem _ ho)
    · -- What is new stands inside the first statement, and so in front of all that was behind it.
      refine List.pairwise_append.2 ⟨pairwise_statementsAt _ c, hr, ?_⟩
      intro a hm b hb
      obtain ⟨r, he, -⟩ := mem_statementsAt hm
      rw [he, List.append_assoc]
      exact (ha b hb).append_left _

theorem passes {queue' : List Tree} (h : Drawn home queue) (hp : Passes queue queue') : Drawn home queue' := by
  cases hp with
  | done => exact h.tail
  | items ts => exact h.replace (.here (.list ts))
  | body test body => exact h.replace (.of_part (.body test body))
  | chosen test body other => exact h.replace (.of_part (.chosen test body other))
  | other test body other => exact h.replace (.of_part (.other test body other))

theorem goes {queue' : List Tree} (h : Drawn home queue) (hg : Goes home queue queue') : Drawn home queue' := by
  cases hg with
  | passes hp => exact h.passes hp
  | jumps rest hv ho =>
    obtain ⟨p, pre, hl⟩ := holds_own_passing hv ho
    exact of_list hl
  | stops => exact ⟨[], rfl, nofun, .nil⟩

end Drawn

/-- However often a program jumps, the queue of its run is made of statements that stand at different places in
it, in the order in which they are written, none of them inside another. So it never gets longer than the
program has places for statements. -/
theorem queue_drawn_from_program (program : List Tree) (s : Session) (hc : s.context = []) (capture : Bool)
    (fuel : Nat) :
    let home : Tree := .list program
    let m := ((load home s.store).run (s.settingOf capture home) fuel).1
    ∃ os : List (Path × Tree), os.map Prod.snd = m.queue ∧
      (∀ o ∈ os, o ∈ home.occurrences ∧ home.at? o.1 = .ok o.2) ∧
      os.Pairwise (fun a b => Path.Earlier a.1 b.1 ∧ ¬ a.1 <+: b.1 ∧ ¬ b.1 <+: a.1) ∧
      (os.map Prod.fst).Nodup ∧ m.queue.length ≤ positionsAll program := by
  intro home m
  have hd : Drawn home m.queue := by
    refine (run_keeps (I := fun m => Drawn home m.queue) ?_ fuel _ ?_).1
    · intro m m' hm hs
      have hg := goes_of_step hs
      rw [Session.settingOf_home hc] at hg
      exact hm.goes hg
    · exact @Drawn.of_list home [] [] program (.here home)
  obtain ⟨os, hq, hh, ha⟩ := hd
  have hn : (os.map Prod.fst).Nodup := by
    refine List.pairwise_map.2 (ha.imp ?_)
    rintro a b hab he
    exact hab.not_inside.1 (he ▸ List.prefix_rfl)
  have hm : ∀ o ∈ os, o ∈ home.occurrences := fun o ho => (hh o ho).2.mem_occurrences (hh o ho).1
  refine ⟨os, hq, fun o ho => ⟨hm o ho, (hh o ho).2.at?⟩, ha.imp fun h => ⟨h.earlier, h.not_inside⟩, hn, ?_⟩
  calc m.queue.length = os.length := by rw [← hq, List.length_map]
    _ ≤ home.occurrences.length := ((List.Nodup.of_map _ hn).subperm hm).length_le
    _ = positionsAll program := length_occurrencesFrom 0 program

/-- A program that never ends and jumps out of a body, into another and back. -/
def wandering : List Tree :=
  let always : Tree := .comparison "==" [.int 1, .int 1]
  [.mark (.int 1), .when always (.list [.print .none, .jump (.int 2), .print .none]),
    .choose always (.print .none) (.list [.mark (.int 2), .jump (.int 1)]), .print .none]

theorem queue_drawn_wandering :
    Session.fresh.context = [] ∧ positionsAll wandering = 12 ∧
      ∃ os : List (Path × Tree), (os.map Prod.fst).Nodup ∧ os.length ≤ 12 ∧ os.map Prod.snd =
        ((load (.list wandering) Session.fresh.store).run
          (Session.fresh.settingOf false (.list wandering)) 1000).1.queue := by
  have hp : positionsAll wandering = 12 := by decide
  obtain ⟨os, hq, -, -, hn, hl⟩ := queue_drawn_from_program wandering Session.fresh rfl false 1000
  rw [← hq, List.length_map, hp] at hl
  exact ⟨rfl, hp, os, hn, hl, hq⟩

end Machine

end Pseudocode
