import Mathlib
import Pseudocode.Proofs.Layout

/-!
# Blanks of other widths

The layout compares depths with each other and with none at all, and does nothing else with them. So a change of all
widths that keeps their order, and keeps what has no width, goes unseen. Two indenters run side by side, one with the
depths of the other stretched: each step gives out the same tokens and the same fault and leaves the one with the
depths of the other stretched (`Indenter.step_stretch`). `layOut_stretched` is that for a whole run, up to the dedents at
its end.
-/

namespace Pseudocode

/-- The same token with the same line around it, but a blank is as wide as `f` makes it. -/
structure Tracked.Stretched (f : Nat → Nat) (t u : Tracked) : Prop where
  kind : u.token.kind = t.token.kind
  line : u.token.line = t.token.line
  opening : u.opening = t.opening
  opensBlock : u.opensBlock = t.opensBlock
  same : t.token.kind ≠ .blank → u.token = t.token
  width : t.token.kind = .blank → Indenter.width u.token = f (Indenter.width t.token)

theorem Tracked.Stretched.eq {f : Nat → Nat} {t u : Tracked} (h : Stretched f t u) (hk : t.token.kind ≠ .blank) :
    u = t := by
  obtain ⟨token, opening, opensBlock⟩ := u
  obtain rfl : token = t.token := h.same hk
  obtain rfl : opening = t.opening := h.opening
  obtain rfl : opensBlock = t.opensBlock := h.opensBlock
  rfl

namespace Indenter

/-- An indenter with all its depths stretched. -/
def stretch (f : Nat → Nat) (d : Indenter) : Indenter :=
  ⟨d.levels.map f, f d.depth, d.afterBlank⟩

section

variable {f : Nat → Nat} (hf : StrictMono f) (h0 : f 0 = 0)

include h0 in
theorem start_stretch : start.stretch f = start := by
  simp [stretch, start, h0]

include h0 in
theorem level_stretch (d : Indenter) : (d.stretch f).level = f d.level := by
  unfold level stretch
  cases d.levels with
  | nil => exact h0.symm
  | cons n levels => rfl

include hf in
/-- As many blocks end. -/
theorem takeWhile_stretch (n : Nat) (levels : List Nat) :
    (levels.map f).takeWhile (f n < ·) = (levels.takeWhile (n < ·)).map f := by
  have hp : (fun m => decide (f n < m)) ∘ f = fun m => decide (n < m) := by
    funext m
    simp [hf.lt_iff_lt]
  rw [List.takeWhile_map, hp]

include hf h0

theorem real_stretch (d : Indenter) (t : Tracked) :
    (d.stretch f).real t = (d.real t).map (Prod.map id (stretch f)) := by
  have hlt : (d.stretch f).level < (d.stretch f).depth ↔ d.level < d.depth := by
    rw [level_stretch h0]
    exact hf.lt_iff_lt
  have heq : (d.stretch f).depth = (d.stretch f).level ↔ d.depth = d.level := by
    rw [level_stretch h0]
    exact hf.injective.eq_iff
  have hmem : (d.stretch f).depth ∈ (d.stretch f).levels ↔ d.depth ∈ d.levels := List.mem_map_of_injective hf.injective
  have hclosed : (d.stretch f).levels.takeWhile ((d.stretch f).depth < ·) =
      (d.levels.takeWhile (d.depth < ·)).map f := takeWhile_stretch hf d.depth d.levels
  unfold real
  simp only [hlt, heq, hmem, hclosed, List.length_map]
  repeat' split
  all_goals simp [Except.map, stretch]

/-- A step with stretched depths is the same step. -/
theorem step_stretch (d : Indenter) {t u : Tracked} (h : t.Stretched f u) :
    (d.stretch f).step u = (d.step t).map (Prod.map id (stretch f)) := by
  by_cases hb : t.token.kind = .blank
  · -- No depth means the same on both sides.
    have hz : (d.stretch f).depth = 0 ↔ d.depth = 0 := by
      rw [← hf.injective.eq_iff (a := d.depth), h0]
      rfl
    rw [step_blank d hb, step_blank _ (h.kind.trans hb), h.width hb]
    simp only [hz]
    split <;> rfl
  · rw [h.eq hb]
    by_cases hn : t.token.kind = .newline
    · rw [step_newline d hn, step_newline _ hn]
      simp [Except.map, stretch, h0]
    · have hr : ∀ e : Indenter, e.step t = e.real t := fun e => by
        unfold step
        split
        · exact absurd ‹_› hb
        · exact absurd ‹_› hn
        · rfl
      rw [hr, hr, real_stretch hf h0]

end

end Indenter

/-- Stretched blanks change nothing in what is laid out from some stage on. -/
theorem layOut_stretch {f : Nat → Nat} (hf : StrictMono f) (h0 : f 0 = 0) (mark : Bool) (fault : Option ReadFault)
    (last : Scanner) {ts us : List (Tracked × Scanner)}
    (h : List.Forall₂ (fun x y => x.1.Stretched f y.1 ∧ y.2 = x.2) ts us) (d : Indenter) (seen put : Option Nat) :
    layOut mark fault last (d.stretch f) seen put us = layOut mark fault last d seen put ts := by
  induction h generalizing d seen put with
  | nil => simp [layOut, Indenter.finish, Indenter.stretch]
  | @cons x y ts us hxy h ih =>
    obtain ⟨t, s⟩ := x
    obtain ⟨u, s'⟩ := y
    obtain ⟨ht, rfl⟩ := hxy
    have hl : u.token.line = t.token.line := ht.line
    simp only [layOut, d.step_stretch hf h0 ht, hl]
    cases d.step t with
    | error f => rfl
    | ok made => simp only [Except.map, Prod.map, id, ih]

/-- Only the order of widths matters. Where the widths of all blanks are changed by a strictly increasing function that
keeps zero, the layout of any tokens gives out the same tokens at the same points, and then the same fault at the same
point. -/
theorem layOut_stretched {f : Nat → Nat} (hf : StrictMono f) (h0 : f 0 = 0) {ts us : List (Tracked × Scanner)}
    (h : List.Forall₂ (fun x y => x.1.Stretched f y.1 ∧ y.2 = x.2) ts us) (mark : Bool) (fault : Option ReadFault)
    (last : Scanner) :
    layOut mark fault last .start none none us = layOut mark fault last .start none none ts := by
  rw [← layOut_stretch hf h0 mark fault last h, Indenter.start_stretch h0]

/-- A token with another width, if it is a blank. -/
def Token.respaced (f : Nat → Nat) (t : Token) : Token :=
  if t.kind = .blank then { t with payload := .text (String.ofList (List.replicate (f (Indenter.width t)) ' ')) } else t

theorem Tracked.stretched_respaced (f : Nat → Nat) (t : Tracked) :
    t.Stretched f { t with token := t.token.respaced f } := by
  unfold Token.respaced
  split
  · exact ⟨rfl, rfl, rfl, rfl, fun hk => absurd ‹_› hk, fun _ => by simp [Indenter.width]⟩
  · exact ⟨rfl, rfl, rfl, rfl, fun _ => rfl, fun hk => absurd hk ‹_›⟩

/-- The tokens of five lines: two that ask for a block, the second of them in the first block, a line in the second
block, a line behind both of them, and one that is indented for no reason. -/
def shifting : List Tracked :=
  LineTracker.start.trackAll [
    ⟨.thenWord, .text "then", 1, 0⟩, ⟨.newline, .text "\n", 1, 4⟩,
    ⟨.blank, .text "  ", 2, 5⟩, ⟨.name, .text "a", 2, 7⟩, ⟨.elseWord, .text "else", 2, 9⟩, ⟨.newline, .text "\n", 2, 13⟩,
    ⟨.blank, .text "   ", 3, 14⟩, ⟨.name, .text "b", 3, 17⟩, ⟨.newline, .text "\n", 3, 18⟩,
    ⟨.name, .text "c", 4, 19⟩, ⟨.newline, .text "\n", 4, 20⟩,
    ⟨.blank, .text " ", 5, 21⟩, ⟨.name, .text "d", 5, 22⟩]

/-- The layout of some tokens with an end marker, where the scanner does not move. -/
def laid (ts : List Tracked) : Stream (Token × Scanner) :=
  layOut true none (.start 1) .start none none (ts.map (·, .start 1))

/-- The two blocks end together, and the last line is at fault, however much deeper the second is than the first. -/
theorem layOut_stretched_shifting :
    laid (shifting.map fun t => { t with token := t.token.respaced fun n => n * n }) = laid shifting ∧
      (laid shifting).items.map (·.1.kind) =
        [.thenWord, .newline, .indent, .name, .elseWord, .newline, .indent, .name, .newline, .dedent, .dedent, .name,
          .newline] ∧
      (laid shifting).fault = some .deeperLine := by
  have hf : StrictMono fun n : Nat => n * n := fun a b h => Nat.mul_self_lt_mul_self h
  refine ⟨layOut_stretched hf rfl ?_ true none _, by decide, by decide⟩
  rw [List.map_map, List.forall₂_map_right_iff, List.forall₂_map_left_iff]
  exact List.forall₂_same.2 fun t _ => ⟨Tracked.stretched_respaced _ t, rfl⟩

end Pseudocode
