import Pseudocode.Proofs.Account
import Pseudocode.Proofs.LexerPast

/-!
# Lines on which nothing is written

A line of blanks, with or without a comment behind them, can be put between any two lines of a text. The text has the
same tokens with it as without it, in other places and with other line ends, and the same fault behind as many tokens:
`Lexer.pulls_unwritten`.

Of the pieces of the text only some are new, behind a line end (`Piece.cut_inserted`). In parentheses they are passed
over. Elsewhere the line end has brought the lexer to the start of a line, and there the new pieces bring it back
(`Piece.Idle.run`): the depth that the blanks set is gone at the end of their line, and a block that is due stays due.
What differs from then on is where the lexer stands, and whether blanks were seen since the last token. Nothing that it
does depends on either (`Stage.Akin`).
-/

namespace Pseudocode

/-- A line on which nothing is written: blanks of one kind and a comment, and none of the two has to be there. -/
def Unwritten (line : List Char) : Prop :=
  ∃ blanks comment, line = blanks ++ comment ∧ (blanks = [] ∨ IsRun ' ' blanks ∨ IsRun '\t' blanks) ∧
    (comment = [] ∨ ∃ note, comment = '#' :: note ∧ '\n' ∉ note)

theorem Unwritten.no_lineEnd {line : List Char} (h : Unwritten line) : '\n' ∉ line := by
  obtain ⟨blanks, comment, rfl, hb, hc⟩ := h
  rw [List.mem_append, not_or]
  constructor
  · rcases hb with rfl | hb | hb
    · nofun
    · exact fun hn => absurd (hb.2 _ hn) (by decide)
    · exact fun hn => absurd (hb.2 _ hn) (by decide)
  · rcases hc with rfl | ⟨note, rfl, hn⟩
    · nofun
    · simpa using hn

/-! ## The pieces of a text with one more line -/

namespace Piece

/-- A piece of some kind, or nothing. -/
inductive AtMost (kind : PieceKind) : List Piece → Prop
  | nothing : AtMost kind []
  | one {p : Piece} (h : p.kind = kind) : AtMost kind [p]

/-- Pieces that say nothing behind a line end: none at all, or those of a line on which nothing is written. -/
inductive Idle : List Piece → Prop
  | nothing : Idle []
  | line {ws cs : List Piece} {e : Piece} (hw : AtMost .blanks ws) (hc : AtMost .comment cs) (he : e.kind = .lineEnds) :
      Idle (ws ++ (cs ++ [e]))

theorem first?_blanks {c : Char} (hc : c = ' ' ∨ c = '\t') {blanks rest : List Char} (hb : IsRun c blanks)
    (hr : rest.head? ≠ some c) : first? (blanks ++ rest) = some (⟨.blanks, blanks⟩, rest) := by
  obtain ⟨d, ds, rfl⟩ := List.exists_cons_of_ne_nil hb.1
  obtain rfl : d = c := hb.2 d List.mem_cons_self
  have hs : ∀ x ∈ rest.head?, (x == d) = false := by
    intro x hx
    rw [beq_eq_false_iff_ne]
    rintro rfl
    exact hr hx
  have hd : ∀ x ∈ ds, (x == d) = true := fun x hx => beq_iff_eq.2 (hb.2 x (List.mem_cons_of_mem _ hx))
  have hm : first? (d :: (ds ++ rest)) = some (run .blanks (· == d) d (ds ++ rest)) := by
    rcases hc with rfl | rfl <;> rfl
  rw [List.cons_append, hm, run_stops _ _ hd hs]

theorem first?_comment {note : List Char} (h : '\n' ∉ note) :
    first? ('#' :: note) = some (⟨.comment, '#' :: note⟩, []) := by
  have hq : ∀ d ∈ note, (d != '\n') = true := by
    intro d hd
    rw [bne_iff_ne]
    rintro rfl
    exact h hd
  have hm : first? ('#' :: note) = some (run .comment (· != '\n') '#' (note ++ [])) := by
    rw [List.append_nil]
    rfl
  rw [hm, run_stops _ _ hq (by simp)]

theorem cut_comment {comment : List Char} (h : comment = [] ∨ ∃ note, comment = '#' :: note ∧ '\n' ∉ note) :
    ∃ cs, AtMost .comment cs ∧ cut comment = (cs, []) := by
  rcases h with rfl | ⟨note, rfl, hn⟩
  · exact ⟨[], .nothing, cut_of_none rfl⟩
  · refine ⟨[⟨.comment, '#' :: note⟩], .one rfl, ?_⟩
    rw [cut_of_first? (first?_comment hn), cut_of_none rfl]

theorem cut_unwritten {line : List Char} (h : Unwritten line) :
    ∃ ws cs, AtMost .blanks ws ∧ AtMost .comment cs ∧ cut line = (ws ++ cs, []) := by
  obtain ⟨blanks, comment, rfl, hb, hc⟩ := h
  obtain ⟨cs, hcs, hcut⟩ := cut_comment hc
  have hh : ∀ {c : Char}, c = ' ' ∨ c = '\t' → comment.head? ≠ some c := by
    rcases hc with rfl | ⟨note, rfl, -⟩
    · simp
    · rintro c (rfl | rfl) <;> simp
  have hr : ∀ {c : Char}, c = ' ' ∨ c = '\t' → IsRun c blanks →
      cut (blanks ++ comment) = ([⟨.blanks, blanks⟩] ++ cs, []) := by
    intro c hc hb
    rw [cut_of_first? (first?_blanks hc hb (hh hc)), hcut]
    rfl
  rcases hb with rfl | hb | hb
  · exact ⟨[], cs, .nothing, hcs, hcut⟩
  · exact ⟨[⟨.blanks, blanks⟩], cs, .one rfl, hcs, hr (.inl rfl) hb⟩
  · exact ⟨[⟨.blanks, blanks⟩], cs, .one rfl, hcs, hr (.inr rfl) hb⟩

/-- Behind a line end, a line on which nothing is written adds idle pieces. -/
theorem cut_idle {line : List Char} (h : Unwritten line) (b : List Char) :
    ∃ mid, Idle mid ∧ cut ((line ++ '\n' :: b).dropWhile (· == '\n')) =
      (mid ++ (cut (b.dropWhile (· == '\n'))).1, (cut (b.dropWhile (· == '\n'))).2) := by
  have hn := h.no_lineEnd
  cases line with
  | nil => exact ⟨[], .nothing, by simp⟩
  | cons c line =>
    have hc : (c == '\n') = false := by
      rw [beq_eq_false_iff_ne]
      rintro rfl
      exact hn List.mem_cons_self
    have hl : (c :: line).getLast? ≠ some '\n' := fun hl => hn (List.mem_of_getLast? hl)
    obtain ⟨ws, cs, hw, hcs, hcut⟩ := cut_unwritten h
    obtain ⟨e, he, hce⟩ := cut_lineEnds b
    refine ⟨ws ++ (cs ++ [e]), .line hw hcs he, ?_⟩
    rw [List.cons_append, List.dropWhile_cons_of_neg (by simp [hc]), ← List.cons_append, cut_line hl, hcut, if_pos rfl,
      hce]
    simp

/-- Where a line on which nothing is written is put behind a line end, the text has the same pieces as before, and
idle ones behind that line end. Where something before cannot be cut, nothing changes. -/
theorem cut_inserted {line : List Char} (h : Unwritten line) (a b : List Char) :
    ((cut (a ++ '\n' :: (line ++ '\n' :: b))).1 = (cut (a ++ '\n' :: b)).1 ∧
        (cut (a ++ '\n' :: (line ++ '\n' :: b))).2.head? = (cut (a ++ '\n' :: b)).2.head?) ∨
      ∃ ps e e' mid qs left, e.kind = .lineEnds ∧ e'.kind = .lineEnds ∧ Idle mid ∧
        cut (a ++ '\n' :: b) = (ps ++ e :: qs, left) ∧
        cut (a ++ '\n' :: (line ++ '\n' :: b)) = (ps ++ e' :: (mid ++ qs), left) := by
  obtain ⟨body, k, rfl, hb⟩ := exists_unended a
  have hd : ∀ cs, (List.replicate k '\n' ++ cs).dropWhile (· == '\n') = cs.dropWhile (· == '\n') := fun cs =>
    List.dropWhile_append_of_pos (by simp)
  rw [lineEnds_shift, lineEnds_shift, cut_line hb, cut_line hb]
  by_cases hl : (cut body).2 = []
  · obtain ⟨e, he, hce⟩ := cut_lineEnds (List.replicate k '\n' ++ b)
    obtain ⟨e', he', hce'⟩ := cut_lineEnds (List.replicate k '\n' ++ (line ++ '\n' :: b))
    obtain ⟨mid, hm, hcm⟩ := cut_idle h b
    refine .inr ⟨(cut body).1, e, e', mid, (cut (b.dropWhile (· == '\n'))).1, (cut (b.dropWhile (· == '\n'))).2, he,
      he', hm, ?_, ?_⟩
    · rw [if_pos hl, hce, hd]
    · rw [if_pos hl, hce', hd, hcm]
  · rw [if_neg hl, if_neg hl]
    obtain ⟨c, rest, hc⟩ := List.exists_cons_of_ne_nil hl
    exact .inl ⟨rfl, by simp [hc]⟩

theorem Idle.not_solid {mid : List Piece} (h : Idle mid) : ∀ p ∈ mid, p.kind.isSolid = false := by
  have hm : ∀ {kind : PieceKind} {ps : List Piece}, kind.isSolid = false → AtMost kind ps →
      ∀ p ∈ ps, p.kind.isSolid = false := by
    rintro kind ps hk (_ | h) p hp
    · cases hp
    · rw [List.mem_singleton.1 hp, h, hk]
  cases h with
  | nothing => nofun
  | line hw hc he =>
    intro p hp
    rw [List.mem_append, List.mem_append, List.mem_singleton] at hp
    rcases hp with hp | hp | rfl
    · exact hm rfl hw p hp
    · exact hm rfl hc p hp
    · rw [he]
      rfl

/-- In parentheses, only solid pieces make tokens. -/
theorem tokenKind?_nested {p : Piece} (hp : p.kind.isSolid = false) (opening : Bool) :
    p.tokenKind? opening true = none := by
  obtain ⟨kind, cs⟩ := p
  cases kind with
  | blanks => simp [tokenKind?]
  | lineEnds | comment => rfl
  | _ => cases hp

end Piece

/-! ## Tokens without their places -/

/-- A token without its place, and a line end without the line ends that it is made of. -/
def Token.bare (t : Token) : Token :=
  ⟨t.kind, if t.kind = .newline then .absent else t.payload, 0, 0⟩

theorem Token.keeps_bare : Keeps bare where
  kind _ := rfl
  width t h := by simp [Indenter.width, bare, h]
  layout kind _ := congrArg (Token.mk kind · 0 0) (ite_self _)

theorem Token.kind_of_bare {t t' : Token} (h : t'.bare = t.bare) : t'.kind = t.kind :=
  (Token.mk.inj h).1

theorem Token.bare_newline {t : Token} (h : t.kind = .newline) : t.bare = ⟨.newline, .absent, 0, 0⟩ := by
  simp [bare, h]

@[simp]
theorem Token.bare_endMarker (m : Option Nat) : (endMarker m).bare = ⟨.endMarker, .absent, 0, 0⟩ :=
  rfl

@[simp]
theorem Indenter.bare_dedents (n line : Nat) :
    (dedents n line).map Token.bare = List.replicate n ⟨.dedent, .absent, 0, 0⟩ := by
  simp [dedents, Token.bare, Token.ofLayout]

/-- Only parentheses matter for what a scanner makes of a piece, apart from the place. -/
theorem Scanner.token?_bare {a b : Scanner} (h : b.parens = a.parens) (opening : Bool) (p : Piece) :
    (b.token? opening p).map (Option.map Token.bare) = (a.token? opening p).map (Option.map Token.bare) := by
  unfold token?
  rw [h]
  cases p.tokenKind? opening (a.parens != 0) with
  | none => rfl
  | some kind => cases p.payload <;> rfl

/-- Two answers that are the same up to a change of what they give. -/
theorem exists_of_map_eq {ε α β : Type} {f : α → β} {x y : Except ε α} (h : y.map f = x.map f) :
    (∃ e, x = .error e ∧ y = .error e) ∨ ∃ a b, x = .ok a ∧ y = .ok b ∧ f b = f a := by
  cases x with
  | error e =>
    cases y with
    | error e' => exact .inl ⟨e, rfl, by cases h; rfl⟩
    | ok b => cases h
  | ok a =>
    cases y with
    | error e => cases h
    | ok b => exact .inr ⟨a, b, rfl, rfl, Except.ok.inj h⟩

theorem LineTracker.step_bare (l : LineTracker) {t t' : Token} (h : t'.bare = t.bare) :
    (l.step t').1.map Token.bare = (l.step t).1.map Token.bare ∧ (l.step t').2 = (l.step t).2 := by
  have ht := l.step_map Token.keeps_bare t
  have ht' := l.step_map Token.keeps_bare t'
  rw [h, ht] at ht'
  exact ⟨(congrArg Prod.fst ht').symm, (congrArg Prod.snd ht').symm⟩

/-- Only at the end of a line does it matter whether blanks were seen. -/
theorem Indenter.step_alike {d d' : Indenter} (hl : d'.levels = d.levels) (hd : d'.depth = d.depth) {t : Tracked}
    (hk : t.token.kind ≠ .newline) : d'.step t = d.step t := by
  have hv : d'.level = d.level := by rw [level, level, hl]
  have hr : d'.real t = d.real t := by rw [real, real, hl, hd, hv]
  unfold step
  rw [hl, hd, hr]
  split
  · rfl
  · exact absurd ‹_› hk
  · rfl

/-! ## Stages that differ in their places -/

namespace Stage

/-- Two stages that stand at different places of their texts. Of one of them it may be that blanks were seen before
it, if a line opens there. -/
structure Akin (s s' : Stage) : Prop where
  parens : s'.scanner.parens = s.scanner.parens
  tracker : s'.tracker = s.tracker
  levels : s'.indenter.levels = s.indenter.levels
  depth : s'.indenter.depth = s.indenter.depth
  out : s'.out.map Token.bare = s.out.map Token.bare
  tracks : s.Tracks
  tracks' : s'.Tracks

theorem Akin.refl {s : Stage} (h : s.Tracks) : Akin s s :=
  ⟨rfl, rfl, rfl, rfl, rfl, h, h⟩

theorem Tracks.afterBlank_or {s : Stage} (h : s.Tracks) :
    (s.indenter.afterBlank || s.tracker.opening) = s.tracker.opening := by
  cases hb : s.indenter.afterBlank with
  | false => rfl
  | true => rw [h.blank hb, Bool.or_true]

theorem Tracks.run {s s' : Stage} {ps : List Piece} (h : s.Tracks) (hr : s.run ps = .ok s') : s'.Tracks := by
  induction ps generalizing s with
  | nil =>
    cases hr
    exact h
  | cons p ps ih =>
    obtain ⟨s₁, hn, hr⟩ := run_cons_ok hr
    exact ih (h.next (next_of_ok hn)) hr

/-- Where akin stages make a token, the indenter gives out the same for both. -/
theorem Akin.step {s s' : Stage} (h : Akin s s') {t t' : Token} (ht : t'.bare = t.bare) :
    (s'.indenter.step (s'.tracker.step t').1).map (fun x => (x.1.map Token.bare, x.2.levels, x.2.depth)) =
      (s.indenter.step (s.tracker.step t).1).map fun x => (x.1.map Token.bare, x.2.levels, x.2.depth) := by
  have hk : t'.kind = t.kind := Token.kind_of_bare ht
  rw [h.tracker]
  by_cases hn : t.kind = .newline
  · have ho' := h.tracks'.afterBlank_or
    rw [h.tracker] at ho'
    rw [LineTracker.step_newline _ hn, LineTracker.step_newline _ (hk.trans hn),
      Indenter.step_newline _ (hk.trans hn), Indenter.step_newline _ hn]
    simp only [Except.map, h.tracks.afterBlank_or, ho', h.levels]
    cases s.tracker.opening <;> simp [ht]
  · have hu : (s.tracker.step t').1.token.kind ≠ .newline := by
      rw [LineTracker.token_step, hk]
      exact hn
    have hm := s.indenter.step_map Token.keeps_bare (s.tracker.step t').1
    rw [(s.tracker.step_bare ht).1, s.indenter.step_map Token.keeps_bare] at hm
    rw [Indenter.step_alike h.levels h.depth hu]
    obtain ⟨e, hx, hy⟩ | ⟨x, y, hx, hy, hxy⟩ := exists_of_map_eq hm.symm
    · rw [hx, hy]
    · rw [hx, hy]
      simp only [Prod.map, id, Prod.mk.injEq] at hxy
      simp [Except.map, hxy.1, hxy.2]

/-- Akin stages take a piece alike: with the same fault, or to akin stages. -/
theorem Akin.next {s s' : Stage} (h : Akin s s') (p : Piece) :
    (∃ f, s.next p = .error f ∧ s'.next p = .error f) ∨
      ∃ s₁ s₁', s.next p = .ok s₁ ∧ s'.next p = .ok s₁' ∧ Akin s₁ s₁' := by
  have hp := Scanner.parens_after h.parens p
  have ht := Scanner.token?_bare h.parens s.tracker.opening p
  rcases exists_of_map_eq ht with ⟨f, ha, hb⟩ | ⟨made, made', ha, hb, hm⟩
  · rw [← h.tracker] at hb
    exact .inl ⟨f, by rw [Stage.next, ha], by rw [Stage.next, hb]⟩
  · rw [← h.tracker] at hb
    cases made with
    | none =>
      obtain rfl : made' = none := by simpa using hm
      have hn := next_skip ha
      have hn' := next_skip hb
      refine .inr ⟨_, _, hn, hn', hp, h.tracker, h.levels, h.depth, h.out, ?_, ?_⟩
      · exact h.tracks.next (next_of_ok hn)
      · exact h.tracks'.next (next_of_ok hn')
    | some t =>
      obtain ⟨t', rfl, hbare⟩ : ∃ t', made' = some t' ∧ t'.bare = t.bare := by simpa using hm
      rcases exists_of_map_eq (h.step hbare) with ⟨f, hs, hs'⟩ | ⟨⟨new, d⟩, ⟨new', d'⟩, hs, hs', hd⟩
      · exact .inl ⟨f, by rw [next_eq ha, hs], by rw [next_eq hb, hs']⟩
      · have hn : s.next p = .ok ⟨s.scanner.after p, (s.tracker.step t).2, d, s.out ++ new⟩ := by
          rw [next_eq ha, hs]
        have hn' : s'.next p = .ok ⟨s'.scanner.after p, (s'.tracker.step t').2, d', s'.out ++ new'⟩ := by
          rw [next_eq hb, hs']
        simp only [Prod.mk.injEq] at hd
        refine .inr ⟨_, _, hn, hn', hp, ?_, hd.2.1, hd.2.2, ?_, ?_, ?_⟩
        · rw [h.tracker]
          exact (s.tracker.step_bare hbare).2
        · simp [h.out, hd.1]
        · exact h.tracks.next (next_of_ok hn)
        · exact h.tracks'.next (next_of_ok hn')

/-- Akin stages give out the same tokens for the same pieces and end with the same fault. Of what is left of a text
only the first character counts. -/
theorem Akin.whole {s s' : Stage} (h : Akin s s') (mark : Bool) {left left' : List Char}
    (hl : left'.head? = left.head?) (seen seen' put put' : Option Nat) (ps : List Piece) :
    (Stage.whole mark left' s' seen' put' ps).1.map Token.bare =
        (Stage.whole mark left s seen put ps).1.map Token.bare ∧
      (Stage.whole mark left' s' seen' put' ps).2 = (Stage.whole mark left s seen put ps).2 := by
  induction ps generalizing s s' seen seen' put put' with
  | nil =>
    cases left with
    | nil =>
      obtain rfl : left' = [] := by simpa using hl
      rw [whole_finish, whole_finish]
      refine ⟨?_, rfl⟩
      cases mark <;> simp [h.out, h.levels]
    | cons c left =>
      obtain ⟨more, rfl⟩ : ∃ more, left' = c :: more := List.head?_eq_some_iff.1 hl
      simp [Stage.whole, track, Stream.ended, layOut, h.out]
  | cons p ps ih =>
    rcases h.next p with ⟨f, hn, hn'⟩ | ⟨s₁, s₁', hn, hn', h₁⟩
    · rw [whole_error mark left seen put hn, whole_error mark left' seen' put' hn']
      exact ⟨h.out, rfl⟩
    · rw [whole_next mark left seen put hn, whole_next mark left' seen' put' hn']
      exact ih h₁ _ _ _ _

/-! ## Over an unwritten line -/

/-- In parentheses, what is not solid is passed over. -/
theorem run_nested {s : Stage} (hp : s.scanner.parens ≠ 0) {ps : List Piece} (hs : ∀ p ∈ ps, p.kind.isSolid = false) :
    ∃ sc : Scanner, sc.parens = s.scanner.parens ∧ s.run ps = .ok { s with scanner := sc } := by
  induction ps generalizing s with
  | nil => exact ⟨s.scanner, rfl, rfl⟩
  | cons p ps ih =>
    have ht : s.scanner.token? s.tracker.opening p = .ok none := by
      rw [Scanner.token?, bne_iff_ne.2 hp, Piece.tokenKind?_nested (hs p List.mem_cons_self)]
    have ha := parens_of_skip ht
    obtain ⟨sc, hsc, hr⟩ := ih (s := { s with scanner := s.scanner.after p }) (ha ▸ hp) fun q hq =>
      hs q (List.mem_cons_of_mem _ hq)
    exact ⟨sc, hsc.trans ha, run_cons (next_skip ht) hr⟩

theorem next_comment (s : Stage) {c : Piece} (hc : c.kind = .comment) :
    s.next c = .ok { s with scanner := s.scanner.after c } :=
  next_skip (by simp [Scanner.token?, Piece.tokenKind?, hc])

section

variable {l : LineTracker} {out : List Token} {levels : List Nat} {s : Stage}

theorem AtLine.comments {depth : Nat} (h : AtLine l out levels depth s) {cs : List Piece}
    (hc : Piece.AtMost .comment cs) : ∃ s', s.run cs = .ok s' ∧ AtLine l out levels depth s' := by
  cases hc with
  | nothing => exact ⟨s, rfl, h⟩
  | one hc =>
    refine ⟨_, run_cons (next_comment s hc) rfl, ?_, h.tracker, h.levels, h.depth, h.out⟩
    simp [Scanner.after, hc, h.parens]

theorem AtLine.atMostBlanks (h : AtLine l out levels 0 s) (ho : l.opening = true) {ws : List Piece}
    (hw : Piece.AtMost .blanks ws) : ∃ depth s', s.run ws = .ok s' ∧ AtLine l out levels depth s' := by
  cases hw with
  | nothing => exact ⟨0, s, rfl, h⟩
  | one hw =>
    have hn := h.blanks ho hw
    rw [if_pos rfl] at hn
    refine ⟨_, _, run_cons hn rfl, ?_, rfl, rfl, rfl, rfl⟩
    simp [Scanner.after, hw, h.parens]

end

end Stage

/-- At the start of a line, idle pieces lead to the start of a line. -/
theorem Piece.Idle.run {mid : List Piece} (h : Idle mid) {l : LineTracker} {out : List Token} {levels : List Nat}
    {s : Stage} (hs : Stage.AtLine l out levels 0 s) (ho : l.opening = true) (hw : l.wait ≠ .atLineEnd) :
    ∃ s', s.run mid = .ok s' ∧ Stage.AtLine l out levels 0 s' := by
  cases h with
  | nothing => exact ⟨s, rfl, hs⟩
  | line hws hcs he =>
    obtain ⟨depth, s₁, hr₁, h₁⟩ := hs.atMostBlanks ho hws
    obtain ⟨s₂, hr₂, h₂⟩ := h₁.comments hcs
    -- The end of the line takes back the depth that the blanks have set.
    obtain ⟨s₃, hn₃, h₃⟩ := h₂.lineEnds ho hw he
    refine ⟨s₃, ?_, h₃⟩
    rw [Stage.run_append, hr₁]
    exact Stage.run_snoc hr₂ hn₃

namespace Stage

/-- A line end leads to the start of a line. -/
theorem atLine_of_lineEnds {s : Stage} {e : Piece} (he : e.kind = .lineEnds) (hp : s.scanner.parens = 0) :
    ∃ n s', n.kind = .newline ∧ s.next e = .ok s' ∧
      AtLine ⟨true, if s.tracker.wait = .atLineEnd then .now else s.tracker.wait⟩
        (s.out ++ if s.indenter.afterBlank || s.tracker.opening then [] else [n]) s.indenter.levels 0 s' := by
  obtain ⟨n, hk, hn⟩ := next_lineEnds he hp
  refine ⟨n, _, hk, hn, ?_, congrArg Prod.snd (LineTracker.step_newline _ hk), rfl, rfl, rfl⟩
  simp [Scanner.after, he, hp]

/-- A line end, and a line end with idle pieces behind it, lead to akin stages. -/
theorem akin_idle {s : Stage} (h : s.Tracks) {e e' : Piece} (he : e.kind = .lineEnds) (he' : e'.kind = .lineEnds)
    {mid : List Piece} (hm : Piece.Idle mid) :
    ∃ s₁ s₁', s.next e = .ok s₁ ∧ s.run (e' :: mid) = .ok s₁' ∧ Akin s₁ s₁' := by
  by_cases hp : s.scanner.parens = 0
  · obtain ⟨n, s₁, hk, hn, h₁⟩ := atLine_of_lineEnds he hp
    obtain ⟨n', s₂, hk', hn', h₂⟩ := atLine_of_lineEnds he' hp
    have hw : (if s.tracker.wait = .atLineEnd then BlockWait.now else s.tracker.wait) ≠ .atLineEnd := by
      split
      · nofun
      · assumption
    obtain ⟨s₃, hr, h₃⟩ := hm.run h₂ rfl hw
    have hr' := run_cons hn' hr
    refine ⟨s₁, s₃, hn, hr', ?_, ?_, ?_, ?_, ?_, h.next (next_of_ok hn), h.run hr'⟩
    · rw [h₁.parens, h₃.parens]
    · rw [h₁.tracker, h₃.tracker]
    · rw [h₁.levels, h₃.levels]
    · rw [h₁.depth, h₃.depth]
    · rw [h₁.out, h₃.out]
      split <;> simp [Token.bare_newline hk, Token.bare_newline hk']
  · have hs : ∀ p ∈ e' :: mid, p.kind.isSolid = false := by
      intro p hpm
      rcases List.mem_cons.1 hpm with rfl | hpm
      · rw [he']
        rfl
      · exact hm.not_solid p hpm
    have hs₁ : ∀ p ∈ [e], p.kind.isSolid = false := by simp [he, PieceKind.isSolid]
    obtain ⟨sc, hsc, hr⟩ := run_nested hp hs₁
    obtain ⟨sc', hsc', hr'⟩ := run_nested hp hs
    exact ⟨_, _, run_single hr, hr', hsc'.trans hsc.symm, rfl, rfl, rfl, rfl, h.run hr, h.run hr'⟩

/-- A line on which nothing is written changes neither what is given out, apart from places, nor the fault. -/
theorem whole_inserted {line : List Char} (h : Unwritten line) (start : Nat) (mark : Bool) (a b : List Char) :
    let x := Piece.cut (a ++ '\n' :: (line ++ '\n' :: b))
    let y := Piece.cut (a ++ '\n' :: b)
    (whole mark x.2 (.start start) none none x.1).1.map Token.bare =
        (whole mark y.2 (.start start) none none y.1).1.map Token.bare ∧
      (whole mark x.2 (.start start) none none x.1).2 = (whole mark y.2 (.start start) none none y.1).2 := by
  intro x y
  have ht : (Stage.start start).Tracks := ⟨rfl, nofun, nofun⟩
  rcases Piece.cut_inserted h a b with ⟨hp, hl⟩ | ⟨ps, e, e', mid, qs, left, he, he', hm, hcy, hcx⟩
  · dsimp only [x, y]
    rw [hp]
    exact (Akin.refl ht).whole mark hl _ _ _ _ _
  · dsimp only [x, y]
    rw [hcx, hcy]
    obtain ⟨done, rest, s, hps, hr, hend⟩ := run_ends (.start start) ps
    have hs : s.Tracks := ht.run hr
    rcases hend with rfl | ⟨p, more, f, rfl, hf⟩
    · rw [List.append_nil] at hps
      subst hps
      obtain ⟨s₁, s₁', hn, hn', h₁⟩ := akin_idle hs he he' hm
      have hy' := run_snoc hr hn
      have hx' : (Stage.start start).run (ps ++ (e' :: mid)) = .ok s₁' := by
        rw [run_append, hr]
        exact hn'
      obtain ⟨seen, put, hwy⟩ := whole_run mark left none none hy' qs
      obtain ⟨seen', put', hwx⟩ := whole_run mark left none none hx' qs
      rw [List.append_assoc, List.singleton_append] at hwy
      rw [List.append_assoc, List.cons_append] at hwx
      rw [hwy, hwx]
      exact h₁.whole mark rfl _ _ _ _ _
    · -- The fault comes before the line end, and nothing behind it is looked at.
      obtain ⟨seen, put, hwy⟩ := whole_run mark left none none hr (p :: more ++ e :: qs)
      obtain ⟨seen', put', hwx⟩ := whole_run mark left none none hr (p :: more ++ e' :: (mid ++ qs))
      rw [hps, List.append_assoc, List.append_assoc, hwy, hwx, List.cons_append, List.cons_append,
        whole_error mark left seen put hf, whole_error mark left seen' put' hf]
      exact ⟨rfl, rfl⟩

end Stage

/-! ## Pulling tokens -/

namespace Lexer

/-- A line on which nothing is written goes unseen between two lines of any text, in a block or at its start or end, and
in parentheses. With it the lexer answers as without it, up to the places of tokens and the number of line ends that a
token of them is made of. -/
theorem pulls_unwritten (l : Lexer) (mark : Bool) (a b : List Char) {line : List Char} (h : Unwritten line) :
    (tokens l.line mark (a ++ '\n' :: (line ++ '\n' :: b))).map Token.bare =
        (tokens l.line mark (a ++ '\n' :: b)).map Token.bare ∧
      (tokenize l.line mark (a ++ '\n' :: (line ++ '\n' :: b))).fault = (tokenize l.line mark (a ++ '\n' :: b)).fault ∧
      ∀ k, ((l.input mark (a ++ '\n' :: (line ++ '\n' :: b))).pulls k).1.map (Pulled.map Token.bare) =
        ((l.input mark (a ++ '\n' :: b)).pulls k).1.map (Pulled.map Token.bare) := by
  obtain ⟨ht, hf⟩ := Stage.whole_inserted h l.line mark a b
  refine ⟨ht, hf, fun k => ?_⟩
  rw [pulls_input, pulls_input, ← Pulled.answers_map, ← Pulled.answers_map]
  exact congrArg₂ (Pulled.answers · · k) hf ht

/-- A line that asks for a block, and another line end. -/
def asking : List Char :=
  "if x < 1, then\n".toList

/-- The block, and a line behind it. -/
def asked : List Char :=
  "  y\nz".toList

/-- A block that is due stays due over a line that is indented in another way and holds a comment. -/
theorem pulls_unwritten_due :
    Unwritten ['\t', '#', '!'] ∧
      (tokens 1 true (asking ++ '\n' :: (['\t', '#', '!'] ++ '\n' :: asked))).map Token.kind =
        [.ifWord, .name, .comparison, .number, .comma, .thenWord, .newline, .indent, .name, .newline, .dedent, .name,
          .endMarker] ∧
      ∀ k, ((fresh.input true (asking ++ '\n' :: (['\t', '#', '!'] ++ '\n' :: asked))).pulls k).1.map
          (Pulled.map Token.bare) =
        ((fresh.input true (asking ++ '\n' :: asked)).pulls k).1.map (Pulled.map Token.bare) := by
  have hu : Unwritten ['\t', '#', '!'] :=
    ⟨['\t'], ['#', '!'], rfl, .inr (.inr ⟨by simp, by simp⟩), .inr ⟨['!'], rfl, by simp⟩⟩
  exact ⟨hu, by cbv, (pulls_unwritten fresh true asking asked hu).2.2⟩

end Lexer

end Pseudocode
