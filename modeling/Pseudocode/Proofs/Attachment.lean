import Mathlib
import Pseudocode.Proofs.Conditional
import Pseudocode.Proofs.ReaderComplete

/-!
# A reader attaches each `else` to the nearest `if`

What a reader has read and not completed are the tokens of its frames and of its mode, and each of these parts is
matched (`Woven`). Every token that the reader takes keeps this (`feed_woven`). An `else` goes past the statements that
it finds complete up to the first one that has none, and those it passes have theirs (`unwind_woven`). A line end could
spoil this, if it made a conditional statement without an `else` the body of the next one outside. But a statement that
waits for an `else` has been read to the end of a line or of a block, and there no line ends. So the tokens of a program
are matched with the words of its tree: `matched_programOf`.
-/

namespace Pseudocode.Reader

open Conditional

/-! ## What frames and modes stand for -/

/-- The frames of an expression. -/
def inExpression : Frame → Bool
  | .negated | .left .. | .paren | .assigned _ | .given | .printed => true
  | _ => false

/-- What was read for a frame. -/
inductive FrameWoven : Frame → List Token → Prop
  | expression {f : Frame} {us : List Token} (hf : inExpression f) (h : Quiet us) : FrameWoven f us
  | tested {us : List Token} (h : Opening us) : FrameWoven .tested us
  | thenPart {test : Tree} {us : List Token} (h : Opening us) : FrameWoven (.thenPart test) us
  | elsePart {test body : Tree} {us bs : List Token} {e : Token} (h : Opening us) (hb : Whole body.words bs)
      (he : e.kind = .elseWord) : FrameWoven (.elsePart test body) (us ++ bs ++ [e])
  | block {done : List Tree} {ns ts : List Token} {i : Token} (hn : Quiet ns) (hi : i.kind = .indent)
      (h : Sound (Tree.wordsAll done.reverse) ts) : FrameWoven (.block done) (ns ++ i :: ts)
  | program {done : List Tree} {us : List Token} (h : Sound (Tree.wordsAll done.reverse) us) :
      FrameWoven (.program done) us

/-- What was read for some frames, the innermost of them first. -/
inductive StackWoven : List Frame → List Token → Prop
  | nil : StackWoven [] []
  | cons {f : Frame} {F : List Frame} {us ts : List Token} (hf : FrameWoven f us) (hF : StackWoven F ts) :
      StackWoven (f :: F) (ts ++ us)

/-- The modes in which nothing was read behind the frames. -/
def isBare : ReaderMode → Bool
  | .statement | .operand | .body => true
  | _ => false

/-- The modes within a simple statement, and before and behind all statements of a part. -/
def isPlain : ReaderMode → Bool
  | .printable | .target | .be _ | .instruction | .jumpLabel | .markLabel | .indent | .accepted => true
  | _ => false

/-- What was read for a mode. -/
inductive ModeWoven : ReaderMode → List Token → Prop
  | bare {m : ReaderMode} (hm : isBare m) : ModeWoven m []
  | plain {m : ReaderMode} {us : List Token} (hm : isPlain m) (h : Quiet us) : ModeWoven m us
  | operator {e : Tree} {c : Bool} {us : List Token} (he : e.words = []) (h : Quiet us) :
      ModeWoven (.operator e c) us
  | thenWord {test : Tree} {us : List Token} (h : Opening us) : ModeWoven (.thenWord test) us
  | ended {s : Tree} {us : List Token} (h : Whole s.words us) : ModeWoven (.ended s) us
  /-- A body has been read up to the end of a line or of a block. -/
  | bodied {test body : Tree} {us bs : List Token} {t : Token} (h : Opening us) (hb : Whole body.words (bs ++ [t]))
      (ht : t.kind.isReal = false) : ModeWoven (.bodied test body) (us ++ (bs ++ [t]))

/-- The parts that a reader has read are matched. -/
def Woven (r : Reader) (us : List Token) : Prop :=
  ∃ ts ms, us = ts ++ ms ∧ StackWoven r.frames ts ∧ ModeWoven r.mode ms

section

variable {t : Token} {F : List Frame} {us ms : List Token} {s e : Tree} {r : Reader}

/-- A frame with nothing read behind it. -/
theorem Woven.of_frame {f : Frame} {m : ReaderMode} {ts : List Token} (hF : StackWoven F ts) (hf : FrameWoven f us)
    (hm : isBare m) : Woven ⟨m, f :: F⟩ (ts ++ us) :=
  ⟨ts ++ us, [], by simp, .cons hf hF, .bare hm⟩

/-! ## One token -/

/-- One more statement of a block or a program. -/
theorem sound_more {done : List Tree} {ts : List Token} (h : Sound (Tree.wordsAll done.reverse) ts)
    (hs : Sound s.words ms) : Sound (Tree.wordsAll (s :: done).reverse) (ts ++ ms) := by
  rw [List.reverse_cons, Tree.wordsAll_append, Tree.wordsAll_single]
  exact h.append hs

theorem words_blockTree (done : List Tree) : (blockTree done).words = Tree.wordsAll done.reverse := by
  unfold blockTree
  split
  · rw [List.reverse_singleton, Tree.wordsAll_single]
  · rw [Tree.words]

theorem words_payload (p : Payload) : p.tree.words = [] := by
  cases p <;> rfl

theorem begin_woven (hF : StackWoven F us) (h : begin t F = some r) : Woven r (us ++ [t]) := by
  unfold begin at h
  split at h <;> cases h
  case h_2 hk => exact .of_frame hF (.tested (.intro hk quiet_nil)) rfl
  case h_3 hk => exact .of_frame hF (.expression rfl (quiet_single hk rfl)) rfl
  all_goals
    rename_i hk
    exact ⟨us, [t], rfl, hF, .plain rfl (quiet_single hk rfl)⟩

theorem operand_woven (hF : StackWoven F us) (h : operand t F = some r) : Woven r (us ++ [t]) := by
  unfold operand at h
  split at h <;> cases h
  case h_1 hk | h_4 hk => exact ⟨us, [t], rfl, hF, .operator rfl (quiet_single hk rfl)⟩
  case h_2 hk | h_3 hk => exact ⟨us, [t], rfl, hF, .operator (words_payload _) (quiet_single hk rfl)⟩
  case h_5 hk | h_6 hk => exact .of_frame hF (.expression rfl (quiet_single hk rfl)) rfl

/-- A statement is put to what it was read for, at the end of its line or of its block. -/
theorem place_woven (hF : StackWoven F us) (hs : Whole s.words (ms ++ [t])) (ht : t.kind.isReal = false)
    (h : place s F = some r) : Woven r (us ++ (ms ++ [t])) := by
  unfold place at h
  split at h <;> cases h
  all_goals
    obtain _ | ⟨hf, hF⟩ := hF
    rw [List.append_assoc]
  case h_1 =>
    cases hf with
    | expression hf => cases hf
    | thenPart ho => exact ⟨_, _, rfl, hF, .bodied ho hs ht⟩
  case h_2 =>
    cases hf with
    | expression hf => cases hf
    | elsePart ho hb he =>
      obtain ⟨hc, ha⟩ := ho.choose hb he hs.toSound
      refine ⟨_, _, rfl, hF, .ended ⟨?_, ?_⟩⟩
      · rw [Tree.words]
        exact hc
      · rw [Tree.words]
        exact ha hs.answered
  case h_3 =>
    cases hf with
    | expression hf => cases hf
    | block hn hi hb =>
      rw [List.append_assoc]
      exact .of_frame hF (.block hn hi (sound_more hb hs.toSound)) rfl
  case h_4 =>
    cases hf with
    | expression hf => cases hf
    | program hp => exact .of_frame hF (.program (sound_more hp hs.toSound)) rfl

theorem atStatement_woven (hF : StackWoven F us) (h : atStatement t F = some r) : Woven r (us ++ [t]) := by
  unfold atStatement at h
  split at h
  case h_1 =>
    rcases Option.or_eq_some_iff.1 h with h | ⟨-, h⟩
    · exact begin_woven hF h
    · exact operand_woven hF h
  case h_2 =>
    split at h
    case h_1 hk =>
      cases h
      obtain _ | ⟨hf, hF⟩ := hF
      cases hf with
      | expression hf => cases hf
      | program hp =>
        have hn : Sound t.payload.tree.words [t] := by
          rw [words_payload]
          exact (quiet_single hk rfl).whole.toSound
        rw [List.append_assoc]
        exact .of_frame hF (.program (sound_more hp hn)) rfl
    case h_2 hk =>
      cases h
      exact ⟨us, [t], rfl, hF, .plain rfl (quiet_single hk rfl)⟩
    case h_3 => exact begin_woven hF h
  case h_3 => exact begin_woven hF h
  case h_4 =>
    split at h
    case isTrue hk =>
      obtain _ | ⟨hf, hF⟩ := hF
      cases hf with
      | expression hf => cases hf
      | @block _ ns ts i hn hi hb =>
        have hw := hb.block hn hi hk
        rw [← words_blockTree] at hw
        have hj : ns ++ i :: (ts ++ [t]) = ns ++ i :: ts ++ [t] := by simp
        rw [hj] at hw
        rw [List.append_assoc]
        exact place_woven hF hw (by rw [hk]; rfl) h
    case isFalse => exact begin_woven hF h
  case h_5 => cases h

theorem unwind_expression {f : Frame} (hf : inExpression f) : unwind t s (f :: F) = none := by
  cases f <;> first | rfl | cases hf

/-- A token behind a statement ends the statements around it up to the one that it belongs to. If it is an `else`, none
of the `if`s that it passes was waiting for it. -/
theorem unwind_woven (hF : StackWoven F us) (hs : Sound s.words ms)
    (ha : t.kind = .elseWord → Answered s.words [] ms) (h : unwind t s F = some r) : Woven r (us ++ ms ++ [t]) := by
  induction F generalizing us ms s with
  | nil => cases h
  | cons f F ih =>
    obtain _ | @⟨_, _, xs, _, hf, hF⟩ := hF
    cases hf with
    | expression hf =>
      rw [unwind_expression hf] at h
      cases h
    | tested => cases h
    | thenPart ho =>
      rw [unwind] at h
      split at h
      case isTrue hk =>
        cases h
        rw [List.append_assoc, List.append_assoc, ← List.append_assoc xs]
        exact .of_frame hF (.elsePart ho ⟨hs, ha hk⟩ hk) rfl
      case isFalse hk =>
        have hw := ho.when hs
        rw [← Tree.words] at hw
        simpa using ih hF hw (fun he => absurd he hk) h
    | elsePart ho hb he =>
      obtain ⟨hc, hx⟩ := ho.choose hb he hs
      rw [← Tree.words] at hc hx
      simpa using ih hF hc (fun hk => hx (ha hk)) h
    | block hn hi hb =>
      have hw := atStatement_woven (.cons (.block hn hi (sound_more hb hs)) hF) h
      simpa using hw
    | program hp =>
      have hw := atStatement_woven (.cons (.program (sound_more hp hs)) hF) h
      simpa using hw

theorem complete_woven (hF : StackWoven F us) (hs : Sound s.words ms)
    (ha : t.kind = .newline ∨ t.kind = .elseWord → Answered s.words [] ms) (h : complete t s F = some r) :
    Woven r (us ++ ms ++ [t]) := by
  rw [complete] at h
  split at h
  case isTrue hk =>
    have hw : Whole s.words (ms ++ [t]) := Whole.append_quiet ⟨hs, ha (.inl hk)⟩ (quiet_single hk rfl)
    rw [List.append_assoc]
    exact place_woven hF hw (by rw [hk]; rfl) h
  case isFalse => exact unwind_woven hF hs (fun he => ha (.inr he)) h

/-- Behind a statement without conditions. -/
theorem complete_quiet (hF : StackWoven F us) (hs : s.words = []) (hm : Quiet ms) (h : complete t s F = some r) :
    Woven r (us ++ ms ++ [t]) := by
  have hw := hm.whole
  rw [← hs] at hw
  exact complete_woven hF hw.toSound (fun _ => hw.answered) h

theorem settle_woven (level : Nat) (c : Bool) (hF : StackWoven F us) (he : e.words = []) (hm : Quiet ms) :
    ∃ us' ms', us ++ ms = us' ++ ms' ∧ StackWoven (settle level e c F).2.2 us' ∧ Quiet ms' ∧
      (settle level e c F).1.words = [] := by
  -- A frame that is settled hands its tokens over to the operand.
  fun_induction settle level e c F generalizing us ms with
  | case1 e c F hl ih =>
    obtain _ | ⟨hf, hF⟩ := hF
    cases hf with
    | expression _ hq =>
      obtain ⟨us', ms', heq, hs⟩ := ih hF rfl (hq.append hm)
      exact ⟨us', ms', by rw [← heq, List.append_assoc], hs⟩
  | case2 e c F hl => exact ⟨us, ms, rfl, hF, hm, he⟩
  | case3 e c op l a F hl ih =>
    obtain _ | ⟨hf, hF⟩ := hF
    cases hf with
    | expression _ hq =>
      have hw : (combine op l a e).words = [] := by
        unfold combine
        split <;> rfl
      obtain ⟨us', ms', heq, hs⟩ := ih hF hw (hq.append hm)
      exact ⟨us', ms', by rw [← heq, List.append_assoc], hs⟩
  | case4 e c op l a F hl => exact ⟨us, ms, rfl, hF, hm, he⟩
  | case5 => exact ⟨us, ms, rfl, hF, hm, he⟩

theorem conclude_woven {c : Bool} (hF : StackWoven F us) (he : e.words = []) (hm : Quiet ms)
    (h : conclude t e c F = some r) : Woven r (us ++ ms ++ [t]) := by
  unfold conclude at h
  split at h
  case h_7 => cases h
  case h_1 =>
    split at h <;> cases h
    rename_i hk
    obtain _ | ⟨hf, hF⟩ := hF
    cases hf with
    | expression _ hq => exact ⟨_, _, by simp, hF, .operator he ((hq.append hm).append (quiet_single hk rfl))⟩
  case h_2 =>
    split at h <;> cases h
    rename_i hk
    obtain _ | ⟨hf, hF⟩ := hF
    cases hf with
    | expression hf => cases hf
    | tested ho =>
      obtain ⟨hi, hr⟩ := ho
      exact ⟨_, _, by simp, hF, .thenWord (.intro hi ((hr.append hm).append (quiet_single hk.1 rfl)))⟩
  case h_3 | h_4 | h_5 =>
    obtain _ | ⟨hf, hF⟩ := hF
    cases hf with
    | expression _ hq => simpa using complete_quiet hF rfl (hq.append hm) h
  case h_6 =>
    obtain _ | ⟨hf, hF⟩ := hF
    cases hf with
    | expression hf => cases hf
    | program hp =>
      have hs : Sound e.words ms := he ▸ hm.whole.toSound
      simpa using atStatement_woven (.cons (.program (sound_more hp hs)) hF) h

theorem operator_woven {c : Bool} (hF : StackWoven F us) (he : e.words = []) (hm : Quiet ms)
    (h : operator t e c F = some r) : Woven r (us ++ ms ++ [t]) := by
  unfold operator at h
  split at h
  case h_1 level hl =>
    obtain ⟨us', ms', heq, hs, hq, -⟩ := settle_woven level c hF he hm
    cases h
    have ht : Quiet [t] := by
      rcases level_cases hl with ⟨hk, -⟩ | ⟨hk, -⟩ | ⟨hk, -⟩ | ⟨hk, -⟩ | ⟨hk, -⟩ <;> exact quiet_single hk rfl
    rw [heq, List.append_assoc]
    exact .of_frame hs (.expression rfl (hq.append ht)) rfl
  case h_2 =>
    obtain ⟨us', ms', heq, hs, hq, hw⟩ := settle_woven 0 c hF he hm
    rw [heq]
    exact conclude_woven hs hw hq h

end

/-- A token behind what stands for no part of a statement. -/
theorem feed_bare {m : ReaderMode} {F : List Frame} {us : List Token} {t : Token} {r : Reader} (hm : isBare m)
    (hF : StackWoven F us) (h : feed ⟨m, F⟩ t = some r) : Woven r (us ++ [t]) := by
  cases m with
  | statement => exact atStatement_woven hF h
  | operand => exact operand_woven hF h
  | body =>
    dsimp only [feed] at h
    split at h
    case isTrue hk =>
      cases h
      exact ⟨us, [t], rfl, hF, .plain rfl (quiet_single hk rfl)⟩
    case isFalse => exact begin_woven hF h
  | _ => cases hm

theorem feed_plain {m : ReaderMode} {F : List Frame} {us ms : List Token} {t : Token} {r : Reader} (hm : isPlain m)
    (hF : StackWoven F us) (hq : Quiet ms) (h : feed ⟨m, F⟩ t = some r) : Woven r (us ++ ms ++ [t]) := by
  cases m with
  -- A `print` can stand alone, so what follows it is an operand or the end of the statement.
  | printable =>
    rcases Option.or_eq_some_iff.1 h with h | ⟨-, h⟩
    · exact operand_woven (.cons (.expression rfl hq) hF) h
    · exact complete_quiet hF rfl hq h
  | target | instruction =>
    obtain ⟨hk, rfl⟩ := expect_eq_some h
    rw [List.append_assoc]
    exact ⟨us, _, rfl, hF, .plain rfl (hq.append (quiet_single hk rfl))⟩
  | be =>
    obtain ⟨hk, rfl⟩ := expect_eq_some h
    rw [List.append_assoc]
    exact .of_frame hF (.expression rfl (hq.append (quiet_single hk rfl))) rfl
  | jumpLabel | markLabel =>
    obtain ⟨hk, rfl⟩ := expect_eq_some h
    rw [List.append_assoc]
    exact ⟨us, _, rfl, hF, .ended (hq.append (quiet_single hk rfl)).whole⟩
  | indent =>
    obtain ⟨hk, rfl⟩ := expect_eq_some h
    rw [List.append_assoc]
    exact .of_frame hF (.block hq hk quiet_nil.whole.toSound) rfl
  | accepted => cases h
  | _ => cases hm

/-- A line ends only behind a token that is written in it. So a body that has been read to the end of a line or of a
block is not followed by another line end, which would make it the body of the next conditional statement outside. -/
theorem feed_woven {r r' : Reader} {us : List Token} {t : Token} (hr : Woven r us)
    (hn : t.kind = .newline → EndsReal us) (h : r.feed t = some r') : Woven r' (us ++ [t]) := by
  obtain ⟨mode, F⟩ := r
  obtain ⟨ts, ms, rfl, hF, hm⟩ := hr
  cases hm with
  | bare hm =>
    rw [List.append_nil]
    exact feed_bare hm hF h
  | plain hm hq => exact feed_plain hm hF hq h
  | operator he hq => exact operator_woven hF he hq h
  | thenWord ho =>
    obtain ⟨hk, rfl⟩ := expect_eq_some h
    obtain ⟨hi, hr⟩ := ho
    rw [List.append_assoc]
    exact .of_frame hF (.thenPart (.intro hi (hr.append (quiet_single hk rfl)))) rfl
  | ended hs => exact complete_woven hF hs.toSound (fun _ => hs.answered) h
  | @bodied test body us bs u ho hb hu =>
    dsimp only [Reader.feed] at h
    split at h
    case isTrue hk =>
      cases h
      have he : FrameWoven (.elsePart test body) (us ++ (bs ++ [u]) ++ [t]) := .elsePart ho hb hk
      rw [List.append_assoc]
      exact .of_frame hF he rfl
    case isFalse hk =>
      have hw := ho.when hb.toSound
      rw [← Tree.words] at hw
      refine complete_woven hF hw ?_ h
      rintro (he | he)
      · obtain ⟨pre, v, heq, hv⟩ := hn he
        rw [← List.append_assoc, ← List.append_assoc] at heq
        rw [← List.singleton_inj.1 (List.append_inj_right' heq rfl), hu] at hv
        cases hv
      · exact absurd he hk

/-! ## All tokens -/

theorem feedAll_woven {ts : List Token} (hl : LinesWritten ts) {r : Reader} (h : start.feedAll ts = .ok r) :
    Woven r ts := by
  induction ts using List.reverseRecOn generalizing r with
  | nil =>
    cases h
    exact .of_frame .nil (.program quiet_nil.whole.toSound) rfl
  | append_singleton ts t ih =>
    obtain ⟨r₁, h₁, hf⟩ := feedAll_snoc h
    have hp : LinesWritten ts := fun pre u post he hk => hl pre u (post ++ [t]) (by simp [he]) hk
    exact feed_woven (ih hp h₁) (hl ts t [] rfl) hf

/-- The tokens of a program are matched with the words of its tree. -/
theorem matched_programOf {ts : List Token} {program : List Tree} (hl : LinesWritten ts)
    (h : programOf ts = .ok program) : Matched (Tree.wordsAll program) ts := by
  obtain ⟨r, hr, hp⟩ := programOf_eq_ok.1 h
  obtain ⟨done, rfl, rfl⟩ := program?_eq_some hp
  obtain ⟨us, ms, rfl, hF, hm⟩ := feedAll_woven hl hr
  obtain _ | ⟨hf, ⟨⟩⟩ := hF
  cases hf with
  | expression hf => cases hf
  | program hp =>
    cases hm with
    | bare hm => cases hm
    | plain _ hq =>
      have hs := hp.append_quiet hq
      exact hs.matched

end Pseudocode.Reader
