import Mathlib.Data.List.Induction
import Pseudocode.Proofs.Layout

/-!
# The pieces of two texts in two parts

A text is cut from the left, and where a piece ends can depend on what comes behind it: `let` is a word and `letter`
another one. A line end settles that. No piece but a run of line ends goes on over it, so the pieces of a text whose
last line is not ended stay what they are when the line ends and more text follows (`Piece.cut_line`). Where two texts
are joined by a line end, only the line ends around it grow together, into one piece: `Piece.cut_joined`.
-/

namespace Pseudocode

namespace Piece

theorem stops_within {p : Char → Bool} {cs : List Char} (h : ∃ d ∈ cs, p d = false) (ds : List Char) :
    (cs ++ ds).takeWhile p = cs.takeWhile p ∧ (cs ++ ds).dropWhile p = cs.dropWhile p ++ ds := by
  induction cs with
  | nil => simp at h
  | cons c cs ih =>
    cases hc : p c with
    | false => simp [hc]
    | true =>
      have hd : ∃ d ∈ cs, p d = false := by simpa [hc] using h
      simpa [hc] using ih hd

theorem stops_at_line {p : Char → Bool} (hp : p '\n' = false) (cs b : List Char) :
    (cs ++ '\n' :: b).takeWhile p = cs.takeWhile p ∧
      (cs ++ '\n' :: b).dropWhile p = cs.dropWhile p ++ '\n' :: b := by
  induction cs with
  | nil => simp [hp]
  | cons c cs ih => cases hc : p c <;> simp [hc, ih]

theorem run_line (kind : PieceKind) {p : Char → Bool} (hp : p '\n' = false) (c : Char) (cs b : List Char) :
    run kind p c (cs ++ '\n' :: b) = ((run kind p c cs).1, (run kind p c cs).2 ++ '\n' :: b) := by
  simp [run, stops_at_line hp]

theorem stringBody_line (cs b : List Char) :
    stringBody (cs ++ '\n' :: b) = (stringBody cs).map fun x => (x.1, x.2 ++ '\n' :: b) := by
  fun_induction stringBody cs with
  | case6 c more hc ih => simp [stringBody, ih, Function.comp_def]
  | case7 c rest _ _ _ ih => simp [stringBody, ih, Function.comp_def]
  | _ => simp [stringBody]

theorem fraction_other {cs : List Char} (h : ∀ d rest, cs ≠ '.' :: d :: rest) : fraction cs = ([], cs) := by
  unfold fraction
  split
  · exact absurd rfl (h _ _)
  · rfl

theorem fraction_line (cs b : List Char) :
    fraction (cs ++ '\n' :: b) = ((fraction cs).1, (fraction cs).2 ++ '\n' :: b) := by
  have hn : Text.isDigit '\n' = false := by decide
  match cs with
  | [] => simp [fraction]
  | [c] =>
    by_cases hc : c = '.'
    · subst hc
      simp [fraction, hn]
    · rw [fraction_other (by simp [hc]), fraction_other (by simp)]
  | c :: d :: rest =>
    by_cases hc : c = '.'
    · subst hc
      cases hd : Text.isDigit d <;> simp [fraction, hd, stops_at_line hn]
    · rw [fraction_other (by simp [hc]), fraction_other (by simp [hc])]

theorem comparison?_other {cs : List Char} (h : ∀ more, cs ≠ '=' :: more) (c : Char) :
    comparison? c cs = if c == '<' || c == '>' then some (⟨.comparison, [c]⟩, cs) else none := by
  unfold comparison?
  split
  · exact absurd rfl (h _)
  · rfl

theorem comparison?_line (c : Char) (cs b : List Char) :
    comparison? c (cs ++ '\n' :: b) = (comparison? c cs).map fun x => (x.1, x.2 ++ '\n' :: b) := by
  by_cases he : ∃ more, cs = '=' :: more
  · obtain ⟨more, rfl⟩ := he
    rfl
  · have he : ∀ more, cs ≠ '=' :: more := fun more h => he ⟨more, h⟩
    have hl : ∀ more, cs ++ '\n' :: b ≠ '=' :: more := by
      intro more h
      cases cs with
      | nil => simp at h
      | cons d cs =>
        cases h
        exact he cs rfl
    rw [comparison?_other he, comparison?_other hl]
    split <;> rfl

theorem numberRun_line (c : Char) (cs b : List Char) :
    numberRun c (cs ++ '\n' :: b) = ((numberRun c cs).1, (numberRun c cs).2 ++ '\n' :: b) := by
  have hn : Text.isDigit '\n' = false := by decide
  simp only [numberRun, stops_at_line hn, fraction_line]

theorem mark?_line {c : Char} {cs : List Char} (h : c = '\n' → ∃ d ∈ cs, (d == '\n') = false) (b : List Char) :
    mark? c (cs ++ '\n' :: b) = (mark? c cs).map fun x => (x.1, x.2 ++ '\n' :: b) := by
  unfold mark?
  split
  case h_1 | h_2 | h_4 => simp [run_line]
  -- A run of line ends is the only piece that a further line end could make longer.
  case h_3 => simp [run, stops_within (h rfl)]
  case h_5 => simp [stringBody_line, Function.comp_def]
  case h_14 | h_15 | h_16 | h_17 => exact comparison?_line ..
  case h_18 => rfl
  all_goals rfl

/-- A piece of a text whose last line is not ended stays what it is when the line ends and more text follows. -/
theorem first?_line {cs : List Char} (hn : cs ≠ []) (hl : cs.getLast? ≠ some '\n') (b : List Char) :
    first? (cs ++ '\n' :: b) = (first? cs).map fun x => (x.1, x.2 ++ '\n' :: b) := by
  obtain ⟨c, cs, rfl⟩ := List.exists_cons_of_ne_nil hn
  have hm : c = '\n' → ∃ d ∈ cs, (d == '\n') = false := by
    rintro rfl
    have hc : cs ≠ [] := by
      rintro rfl
      exact hl rfl
    refine ⟨cs.getLast hc, List.getLast_mem hc, ?_⟩
    rw [List.getLast?_cons_of_ne_nil hc, List.getLast?_eq_some_getLast hc] at hl
    simpa using hl
  rw [List.cons_append, first?, first?, mark?_line hm]
  split
  · rw [run_line _ (by decide)]
    rfl
  · split
    · rw [numberRun_line]
      rfl
    · rfl

theorem cut_of_none {cs : List Char} (h : first? cs = none) : cut cs = ([], cs) := by
  rw [cut]
  split
  · rfl
  · rename_i hs
    rw [hs] at h
    cases h

theorem cut_of_first? {cs rest : List Char} {p : Piece} (h : first? cs = some (p, rest)) :
    cut cs = (p :: (cut rest).1, (cut rest).2) := by
  rw [cut]
  split
  · rename_i hs
    rw [hs] at h
    cases h
  · rename_i hs
    rw [hs] at h
    cases h
    rfl

/-- The pieces of a text whose last line is not ended stay the first ones when the line ends and more text follows. -/
theorem cut_line {cs : List Char} (hl : cs.getLast? ≠ some '\n') (b : List Char) :
    cut (cs ++ '\n' :: b) =
      if (cut cs).2 = [] then ((cut cs).1 ++ (cut ('\n' :: b)).1, (cut ('\n' :: b)).2)
      else ((cut cs).1, (cut cs).2 ++ '\n' :: b) := by
  fun_induction cut cs with
  | case1 cs hf =>
    by_cases hc : cs = []
    · subst hc
      simp
    · rw [cut_of_none (by rw [first?_line hc hl, hf]; rfl)]
      simp [hc]
  | case2 cs p rest hf _ ps left hc ih =>
    have hn : cs ≠ [] := by
      rintro rfl
      cases hf
    have hr : rest.getLast? ≠ some '\n' := by
      intro hr
      apply hl
      rw [(text_first? hf).1, List.getLast?_append, hr]
      rfl
    rw [cut_of_first? (by rw [first?_line hn hl, hf]; rfl), ih hr, hc]
    dsimp only
    split <;> rfl

theorem cut_lineEnds (b : List Char) :
    ∃ e : Piece, e.kind = .lineEnds ∧
      cut ('\n' :: b) = (e :: (cut (b.dropWhile (· == '\n'))).1, (cut (b.dropWhile (· == '\n'))).2) :=
  ⟨(run .lineEnds (· == '\n') '\n' b).1, rfl, cut_of_first? rfl⟩

/-- Line ends, or nothing. -/
inductive AtMostLineEnds : List Piece → Prop
  | nothing : AtMostLineEnds []
  | lineEnds {e : Piece} (h : e.kind = .lineEnds) : AtMostLineEnds [e]

theorem exists_unended (cs : List Char) :
    ∃ body k, cs = body ++ List.replicate k '\n' ∧ body.getLast? ≠ some '\n' := by
  induction cs using List.reverseRecOn with
  | nil => exact ⟨[], 0, rfl, by simp⟩
  | append_singleton cs c ih =>
    by_cases hc : c = '\n'
    · obtain ⟨body, k, rfl, hb⟩ := ih
      refine ⟨body, k + 1, ?_, hb⟩
      rw [hc, List.append_assoc, ← List.replicate_succ']
    · exact ⟨cs ++ [c], 0, by simp, by simpa using hc⟩

/-- A line end behind others is as good as one before them. -/
theorem lineEnds_shift (body : List Char) (k : Nat) (b : List Char) :
    body ++ List.replicate k '\n' ++ '\n' :: b = body ++ '\n' :: (List.replicate k '\n' ++ b) := by
  rw [List.append_assoc, ← List.cons_append, ← List.replicate_succ, List.replicate_succ', List.append_assoc]
  rfl

/-- Where a text ends, there may be line ends behind a last line. -/
theorem cut_trailing {a : List Char} (h : (cut a).2 = []) :
    ∃ body k tail, a = body ++ List.replicate k '\n' ∧ body.getLast? ≠ some '\n' ∧ (cut body).2 = [] ∧
      AtMostLineEnds tail ∧ (cut a).1 = (cut body).1 ++ tail := by
  obtain ⟨body, k, rfl, hb⟩ := exists_unended a
  cases k with
  | zero =>
    rw [List.replicate_zero, List.append_nil] at h ⊢
    exact ⟨body, 0, [], by simp, hb, h, .nothing, by simp⟩
  | succ k =>
    obtain ⟨e, he, hc⟩ := cut_lineEnds (List.replicate k '\n')
    have hd : (List.replicate k '\n').dropWhile (· == '\n') = [] := by simp
    rw [hd, show cut [] = ([], []) from cut_of_none rfl] at hc
    rw [List.replicate_succ, cut_line hb] at h
    have hl : (cut body).2 = [] := by
      by_contra hl
      rw [if_neg hl] at h
      simp at h
    refine ⟨body, k + 1, [e], rfl, hb, hl, .lineEnds he, ?_⟩
    rw [List.replicate_succ, cut_line hb, if_pos hl, hc]

/-- Where a text begins, there may be line ends before its first line. -/
theorem cut_leading (b : List Char) :
    ∃ lead, AtMostLineEnds lead ∧
      cut b = (lead ++ (cut (b.dropWhile (· == '\n'))).1, (cut (b.dropWhile (· == '\n'))).2) := by
  match b with
  | [] => exact ⟨[], .nothing, rfl⟩
  | c :: b =>
    by_cases hc : c = '\n'
    · subst hc
      obtain ⟨e, he, h⟩ := cut_lineEnds b
      exact ⟨[e], .lineEnds he, by simpa using h⟩
    · exact ⟨[], .nothing, by simp [hc]⟩

/-- The pieces of two texts joined by a line end. All line ends between them are one piece. -/
theorem cut_joined {a : List Char} (ha : (cut a).2 = []) (b : List Char) :
    ∃ ps tail e lead qs, AtMostLineEnds tail ∧ e.kind = .lineEnds ∧ AtMostLineEnds lead ∧
      (cut a).1 = ps ++ tail ∧ (cut b).1 = lead ++ qs ∧ cut (a ++ '\n' :: b) = (ps ++ e :: qs, (cut b).2) := by
  obtain ⟨body, k, tail, rfl, hb, hl, ht, hca⟩ := cut_trailing ha
  obtain ⟨lead, hlead, hcb⟩ := cut_leading b
  obtain ⟨e, he, hce⟩ := cut_lineEnds (List.replicate k '\n' ++ b)
  have hd : (List.replicate k '\n' ++ b).dropWhile (· == '\n') = b.dropWhile (· == '\n') :=
    List.dropWhile_append_of_pos (by simp)
  refine ⟨_, tail, e, lead, _, ht, he, hlead, hca, congrArg Prod.fst hcb, ?_⟩
  rw [lineEnds_shift, cut_line hb, if_pos hl, hce, hd, hcb]

end Piece

end Pseudocode
