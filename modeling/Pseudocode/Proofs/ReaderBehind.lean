import Pseudocode.Proofs.JoinedTokens
import Pseudocode.Proofs.Program
import Pseudocode.Proofs.ReaderComplete

/-!
# The reader behind items that are read already

A reader sees what a token says and not where it stands (`feed_content`). If it has read some items of the program, it
takes the same tokens as without them and adds what it reads, as long as the first of these is a statement: only an
expression has to be the very first item (`feed_behind`). The first token tells which of the two a program begins with,
so a program of statements only begins with the word of one: `begins_of_statements`.
-/

namespace Pseudocode

namespace Reader

/-! ## What a reader sees of a token -/

theorem unwind_content {t u : Token} (h : u.content = t.content) (s : Tree) (F : List Frame) :
    unwind u s F = unwind t s F := by
  obtain ⟨k, p, l, q⟩ := t
  obtain ⟨_, _, l', q'⟩ := u
  cases h
  induction F generalizing s with
  | nil => rfl
  | cons f F ih =>
    cases f with
    | thenPart test => simp only [unwind, ih]
    | elsePart test body => exact ih _
    | _ => rfl

theorem feed_content (r : Reader) {t u : Token} (h : u.content = t.content) : r.feed u = r.feed t := by
  have hu := unwind_content h
  obtain ⟨k, p, l, q⟩ := t
  obtain ⟨_, _, l', q'⟩ := u
  cases h
  obtain ⟨m, F⟩ := r
  have hc : ∀ s G, complete ⟨k, p, l', q'⟩ s G = complete ⟨k, p, l, q⟩ s G := fun s G => by
    simp only [complete, hu]
  cases m with
  | printable =>
    simp only [feed, hc]
    rfl
  | ended | bodied => simp only [feed, hc]
  | operator e c =>
    have hk : ∀ e c G, conclude ⟨k, p, l', q'⟩ e c G = conclude ⟨k, p, l, q⟩ e c G := by
      intro e c G
      cases G with
      | nil => rfl
      | cons f G =>
        cases f with
        | assigned | given | printed => exact hc ..
        | program done => cases done <;> rfl
        | _ => rfl
    simp only [feed, operator, hk]
  | _ => rfl

theorem feedAll_content {r r' : Reader} {ts us : List Token} (h : us.map Token.content = ts.map Token.content)
    (hr : r.feedAll ts = .ok r') : r.feedAll us = .ok r' := by
  induction ts generalizing r us with
  | nil =>
    rw [List.map_nil, List.map_eq_nil_iff] at h
    rwa [h]
  | cons t ts ih =>
    obtain ⟨u, us, rfl, hu, hus⟩ := List.map_eq_cons_iff.1 h
    obtain ⟨r₁, h₁, h₂⟩ := feedAll_cons_ok hr
    exact feedAll_cons ((r.feed_content hu).trans h₁) (ih hus h₂)

/-! ## Reading behind items that are read already -/

end Reader

/-- More items stand before those of the program. -/
def Frame.behind (base : List Tree) : Frame → Frame
  | .program done => .program (done ++ base)
  | f => f

namespace Reader

/-- A reader that has read more items before. -/
def behind (base : List Tree) (r : Reader) : Reader :=
  ⟨r.mode, r.frames.map (Frame.behind base)⟩

/-- An expression on top of some frames is not the first item of the program. -/
def Inside : List Frame → Prop
  | .negated :: F | .left _ _ _ :: F | .paren :: F => Inside F
  | .program [] :: _ => False
  | _ => True

/-- The frame on top is not that of a program without an item. -/
def Begun (F : List Frame) : Prop :=
  ∀ G, F ≠ .program [] :: G

/-- The first item of the program is a statement, or will be one. -/
def Grounded (r : Reader) : Prop :=
  match r.mode with
  | .statement => Begun r.frames
  | .operand | .operator _ _ => Inside r.frames
  | _ => True

section

variable {t : Token} {F : List Frame} {r : Reader}

theorem begin_grounded (h : begin t F = some r) : Grounded r := by
  unfold begin at h
  split at h <;> cases h <;> trivial

theorem operand_grounded (hF : Inside F) (h : operand t F = some r) : Grounded r := by
  unfold operand at h
  split at h <;> cases h <;> exact hF

theorem place_grounded {s : Tree} (h : place s F = some r) : Grounded r := by
  unfold place at h
  split at h <;> cases h <;> simp [Grounded, Begun]

theorem atStatement_grounded (hF : Begun F) (h : atStatement t F = some r) : Grounded r := by
  unfold atStatement at h
  split at h
  · exact absurd rfl (hF _)
  · split at h
    · cases h; simp [Grounded, Begun]
    · cases h; trivial
    · exact begin_grounded h
  · exact begin_grounded h
  · split at h
    · exact place_grounded h
    · exact begin_grounded h
  · cases h

theorem unwind_grounded {s : Tree} (h : unwind t s F = some r) : Grounded r := by
  induction F generalizing s with
  | nil => cases h
  | cons f F ih =>
    cases f with
    | thenPart test =>
      rw [unwind] at h
      split at h
      · cases h; trivial
      · exact ih h
    | elsePart test body => exact ih h
    | block done => exact atStatement_grounded (by simp [Begun]) h
    | program done => exact atStatement_grounded (by simp [Begun]) h
    | _ => cases h

theorem complete_grounded {s : Tree} (h : complete t s F = some r) : Grounded r := by
  unfold complete at h
  split at h
  · exact place_grounded h
  · exact unwind_grounded h

theorem settle_inside (level : Nat) (e : Tree) (c : Bool) (hF : Inside F) : Inside (settle level e c F).2.2 := by
  fun_induction settle level e c F with
  | case1 _ _ _ _ ih => exact ih hF
  | case3 _ _ _ _ _ _ _ ih => exact ih hF
  | _ => exact hF

theorem conclude_grounded {e : Tree} {c : Bool} (hF : Inside F) (h : conclude t e c F = some r) : Grounded r := by
  unfold conclude at h
  split at h
  · split at h <;> cases h
    exact hF
  · split at h <;> cases h
    trivial
  · exact complete_grounded h
  · exact complete_grounded h
  · exact complete_grounded h
  · exact absurd hF id
  · cases h

/-- Once a statement begins the program, no expression does. -/
theorem feed_grounded {r' : Reader} (hr : Grounded r) (h : r.feed t = some r') : Grounded r' := by
  obtain ⟨m, F⟩ := r
  cases m with
  | statement => exact atStatement_grounded hr h
  | operand => exact operand_grounded hr h
  | printable =>
    rcases Option.or_eq_some_iff.1 h with h | ⟨-, h⟩
    · exact operand_grounded (F := .printed :: F) trivial h
    · exact complete_grounded h
  | operator e c =>
    simp only [feed, operator] at h
    split at h
    · cases h
      exact settle_inside _ e c hr
    · exact conclude_grounded (settle_inside 0 e c hr) h
  | body =>
    simp only [feed] at h
    split at h
    · cases h; trivial
    · exact begin_grounded h
  | ended s => exact complete_grounded h
  | bodied test body =>
    simp only [feed] at h
    split at h
    · cases h; trivial
    · exact complete_grounded h
  | accepted => cases h
  | indent =>
    obtain ⟨-, rfl⟩ := expect_eq_some h
    simp [Grounded, Begun]
  | _ =>
    obtain ⟨-, rfl⟩ := expect_eq_some h
    trivial

end

section

variable (base : List Tree) (t : Token) {F : List Frame}

theorem begin_behind (F : List Frame) : begin t (F.map (Frame.behind base)) = (begin t F).map (behind base) := by
  unfold begin
  split <;> rfl

theorem operand_behind (F : List Frame) : operand t (F.map (Frame.behind base)) = (operand t F).map (behind base) := by
  unfold operand
  split <;> rfl

theorem place_behind (s : Tree) (F : List Frame) :
    place s (F.map (Frame.behind base)) = (place s F).map (behind base) := by
  match F with
  | [] => rfl
  | f :: F => cases f <;> rfl

theorem atStatement_behind (hF : Begun F) :
    atStatement t (F.map (Frame.behind base)) = (atStatement t F).map (behind base) := by
  match F with
  | [] => rfl
  | .program [] :: F => exact absurd rfl (hF F)
  | .program (d :: done) :: F =>
    have hb := begin_behind base t (.program (d :: done) :: F)
    simp only [List.map_cons, Frame.behind, List.cons_append, atStatement] at hb ⊢
    split
    · rfl
    · rfl
    · exact hb
  | .block [] :: F => exact begin_behind base t (.block [] :: F)
  | .block (d :: done) :: F =>
    have hb := begin_behind base t (.block (d :: done) :: F)
    simp only [List.map_cons, Frame.behind, atStatement] at hb ⊢
    split
    · exact place_behind base _ F
    · exact hb
  | .negated :: F | .left _ _ _ :: F | .paren :: F | .assigned _ :: F | .given :: F | .printed :: F | .tested :: F
  | .thenPart _ :: F | .elsePart _ _ :: F => rfl

theorem unwind_behind (s : Tree) (F : List Frame) :
    unwind t s (F.map (Frame.behind base)) = (unwind t s F).map (behind base) := by
  induction F generalizing s with
  | nil => rfl
  | cons f F ih =>
    cases f with
    | thenPart test =>
      simp only [List.map_cons, Frame.behind, unwind]
      split
      · rfl
      · exact ih _
    | elsePart test body => exact ih _
    | block done => exact atStatement_behind base t (F := .block (s :: done) :: F) (by simp [Begun])
    | program done => exact atStatement_behind base t (F := .program (s :: done) :: F) (by simp [Begun])
    | _ => rfl

theorem complete_behind (s : Tree) (F : List Frame) :
    complete t s (F.map (Frame.behind base)) = (complete t s F).map (behind base) := by
  unfold complete
  split
  · exact place_behind base s F
  · exact unwind_behind base t s F

theorem settle_behind (level : Nat) (e : Tree) (c : Bool) (F : List Frame) :
    settle level e c (F.map (Frame.behind base)) =
      ((settle level e c F).1, (settle level e c F).2.1, (settle level e c F).2.2.map (Frame.behind base)) := by
  induction F generalizing e c with
  | nil => rfl
  | cons f F ih =>
    cases f with
    | negated | left =>
      simp only [List.map_cons, Frame.behind, settle]
      split
      · exact ih ..
      · rfl
    | _ => rfl

theorem conclude_behind (e : Tree) (c : Bool) (hF : Inside F) :
    conclude t e c (F.map (Frame.behind base)) = (conclude t e c F).map (behind base) := by
  match F with
  | [] => rfl
  | .program [] :: F => exact absurd hF id
  | .program (d :: done) :: F => rfl
  | .paren :: F | .tested :: F =>
    simp only [List.map_cons, Frame.behind, conclude]
    split <;> rfl
  | .assigned _ :: F | .given :: F | .printed :: F => exact complete_behind base t _ F
  | .negated :: F | .left _ _ _ :: F | .thenPart _ :: F | .elsePart _ _ :: F | .block _ :: F => rfl

/-- Behind more items a reader takes the same tokens and adds what it reads to them. -/
theorem feed_behind {r : Reader} (hr : Grounded r) : (r.behind base).feed t = (r.feed t).map (behind base) := by
  obtain ⟨m, F⟩ := r
  have he : ∀ k m G, expect t k m (G.map (Frame.behind base)) = (expect t k m G).map (behind base) := by
    intro k m G
    unfold expect
    split <;> rfl
  cases m with
  | statement => exact atStatement_behind base t hr
  | operand => exact operand_behind base t F
  | printable =>
    have ho := operand_behind base t (.printed :: F)
    simp only [List.map_cons, Frame.behind] at ho
    simp only [behind, feed, ho, complete_behind, Option.map_or]
  | operator e c =>
    simp only [behind, feed, operator, settle_behind]
    split
    · rfl
    · exact conclude_behind base t _ _ (settle_inside 0 e c hr)
  | body =>
    simp only [behind, feed]
    split
    · rfl
    · exact begin_behind base t F
  | ended s => exact complete_behind base t s F
  | bodied test body =>
    simp only [behind, feed]
    split
    · rfl
    · exact complete_behind base t _ F
  | accepted => rfl
  | be x => exact he _ _ (.assigned x :: F)
  | thenWord test => exact he _ _ (.thenPart test :: F)
  | indent => exact he _ _ (.block [] :: F)
  | _ => exact he _ _ F

end

theorem feedAll_behind (base : List Tree) {r r' : Reader} {ts : List Token} (hr : Grounded r)
    (h : r.feedAll ts = .ok r') : (r.behind base).feedAll ts = .ok (r'.behind base) := by
  induction ts generalizing r with
  | nil =>
    cases h
    rfl
  | cons t ts ih =>
    obtain ⟨r₁, h₁, h₂⟩ := feedAll_cons_ok h
    refine feedAll_cons ?_ (ih (feed_grounded hr h₁) h₂)
    rw [feed_behind base t hr, h₁]
    rfl

/-! ## Programs that begin with a statement -/

/-- An expression on top of some frames is the first item of the program. -/
inductive Bare : List Frame → Prop
  | program : Bare [.program []]
  | negated {F} (h : Bare F) : Bare (.negated :: F)
  | left {F op level a} (h : Bare F) : Bare (.left op level a :: F)
  | paren {F} (h : Bare F) : Bare (.paren :: F)

/-- The first item of the program is no statement, or will be none. -/
inductive Led : Reader → Prop
  | operand {F} (h : Bare F) : Led ⟨.operand, F⟩
  | operator {e c F} (he : e.isStatement = false) (h : Bare F) : Led ⟨.operator e c, F⟩
  | item {e r} (he : e.isStatement = false) (h : Grounded r) : Led (r.behind [e])

theorem operand_led {t : Token} {F : List Frame} {r : Reader} (hF : Bare F) (h : operand t F = some r) : Led r := by
  unfold operand at h
  split at h <;> cases h
  case h_1 | h_4 => exact .operator rfl hF
  case h_2 | h_3 => exact .operator (isStatement_tree _) hF
  case h_5 => exact .operand (.negated hF)
  case h_6 => exact .operand (.paren hF)

theorem settle_bare (level : Nat) {e : Tree} (c : Bool) {F : List Frame} (he : e.isStatement = false) (hF : Bare F) :
    (settle level e c F).1.isStatement = false ∧ Bare (settle level e c F).2.2 := by
  induction hF generalizing e c with
  | program => exact ⟨he, .program⟩
  | negated h ih =>
    rw [settle]
    split
    · exact ih false rfl
    · exact ⟨he, .negated h⟩
  | @left F op l a h ih =>
    rw [settle]
    split
    · refine ih _ ?_
      unfold combine
      split <;> rfl
    · exact ⟨he, .left h⟩
  | paren h => exact ⟨he, .paren h⟩

theorem conclude_led {t : Token} {e : Tree} {c : Bool} {F : List Frame} {r : Reader} (he : e.isStatement = false)
    (hF : Bare F) (h : conclude t e c F = some r) : Led r := by
  cases hF with
  | program =>
    rw [conclude, atStatement] at h
    split at h
    · cases h
      exact .item (r := ⟨.statement, [.program [t.payload.tree]]⟩) he (by simp [Grounded, Begun])
    · cases h
      exact .item (r := ⟨.accepted, [.program []]⟩) he trivial
    · have hb := begin_behind [e] t [.program []]
      rw [List.map_singleton, Frame.behind, List.nil_append, h] at hb
      obtain ⟨r₀, h₀, rfl⟩ := Option.map_eq_some_iff.1 hb.symm
      exact .item he (begin_grounded h₀)
  | negated | left => cases h
  | paren hF =>
    rw [conclude] at h
    split at h <;> cases h
    exact .operator he hF

theorem Led.feed {r r' : Reader} {t : Token} (hr : Led r) (h : r.feed t = some r') : Led r' := by
  cases hr with
  | operand hF => exact operand_led hF h
  | @operator e c F he hF =>
    simp only [Reader.feed, Reader.operator] at h
    split at h
    · cases h
      exact .operand (.left (settle_bare _ c he hF).2)
    · obtain ⟨he', hF'⟩ := settle_bare 0 c he hF
      exact conclude_led he' hF' h
  | @item e r he hr =>
    rw [feed_behind [e] t hr] at h
    obtain ⟨r₁, h₁, rfl⟩ := Option.map_eq_some_iff.1 h
    exact .item he (feed_grounded hr h₁)

theorem Led.accepted {done : List Tree} (h : Led ⟨.accepted, [.program done]⟩) : ∃ e ∈ done, e.isStatement = false := by
  generalize hr : (⟨.accepted, [.program done]⟩ : Reader) = r at h
  cases h with
  | operand | operator => cases hr
  | @item e r he _ =>
    obtain ⟨m, F⟩ := r
    simp only [behind, Reader.mk.injEq] at hr
    obtain ⟨-, hF⟩ := hr
    obtain ⟨f, G, rfl, hf, -⟩ := List.map_eq_cons_iff.1 hF.symm
    cases f with
    | program done' =>
      cases hf
      exact ⟨e, by simp, he⟩
    | _ => cases hf

/-- A program of statements only begins with the word of one. -/
theorem begins_of_statements {t : Token} {ts : List Token} {done : List Tree}
    (h : start.feedAll (t :: ts) = .ok ⟨.accepted, [.program done]⟩) (hs : ∀ s ∈ done, s.isStatement) :
    ∃ r, begin t [.program []] = some r ∧ r.feedAll ts = .ok ⟨.accepted, [.program done]⟩ := by
  obtain ⟨r, hr, h⟩ := feedAll_cons_ok h
  rcases Option.or_eq_some_iff.1 hr with hb | ⟨-, ho⟩
  · exact ⟨r, hb, h⟩
  · obtain ⟨e, he, hn⟩ := (feedAll_keeps Led.feed (operand_led .program ho) h).accepted
    rw [hs e he] at hn
    cases hn

theorem grounded_of_statements {us ts : List Token} {r : Reader} {done : List Tree} (hu : us ≠ [])
    (hr : start.feedAll us = .ok r) (h : r.feedAll ts = .ok ⟨.accepted, [.program done]⟩)
    (hs : ∀ s ∈ done, s.isStatement) : Grounded r := by
  obtain ⟨t, us, rfl⟩ := List.exists_cons_of_ne_nil hu
  obtain ⟨r₀, hb, -⟩ := begins_of_statements (feedAll_append hr h) hs
  rw [feedAll, show start.feed t = some r₀ from Option.or_eq_some_iff.2 (.inl hb)] at hr
  exact feedAll_keeps feed_grounded (begin_grounded hb) hr

end Reader

end Pseudocode
