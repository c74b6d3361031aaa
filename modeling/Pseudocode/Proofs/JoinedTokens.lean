import Pseudocode.Proofs.Indentation
import Pseudocode.Proofs.JoinedPieces

/-!
# The tokens of two texts joined by a line end

The lexer takes a text behind another one as it takes it alone. Two stages that differ only in where they stand and in
what they have given out before do the same with every piece (`Stage.Twin`). A text begins at the start of a line, where
nothing but blanks and line ends was read; there a stage behind another text differs in the blocks that are open, too,
and the first token that is written closes them (`Stage.Poised`). So the tokens of the joined texts are those of the
first with its last line ended, the dedents that close its blocks and those of the second: `Stage.run_joined`.
-/

namespace Pseudocode

/-! ## Tokens that say the same -/

/-- What a token says, wherever it stands. -/
def Token.content (t : Token) : TokenKind × Payload :=
  (t.kind, t.payload)

@[simp]
theorem Token.content_ofLayout (kind : TokenKind) (line : Nat) : (ofLayout kind line).content = (kind, .absent) :=
  rfl

@[simp]
theorem Indenter.content_dedents (n line : Nat) :
    (dedents n line).map Token.content = List.replicate n (.dedent, .absent) := by
  simp [dedents]

theorem LineTracker.step_content (l : LineTracker) {t t' : Token} (h : t'.content = t.content) :
    (l.step t').2 = (l.step t).2 ∧ (l.step t).1.token = t ∧
      (l.step t').1 = ⟨t', (l.step t).1.opening, (l.step t).1.opensBlock⟩ := by
  have hk : t'.kind = t.kind := congrArg Prod.fst h
  unfold step
  rw [hk]
  cases t.kind <;> exact ⟨rfl, rfl, rfl⟩

theorem Indenter.step_content {d d' : Indenter} {t : Tracked} {u : Token} (h : u.content = t.token.content)
    {new : List Token} (hs : d.step t = .ok (new, d')) :
    ∃ new', d.step ⟨u, t.opening, t.opensBlock⟩ = .ok (new', d') ∧
      new'.map Token.content = new.map Token.content := by
  have hk : u.kind = t.token.kind := congrArg Prod.fst h
  have hw : width u = width t.token := by
    rw [width, width, show u.payload = t.token.payload from congrArg Prod.snd h]
  unfold step at hs ⊢
  rw [hk]
  split at hs
  case h_1 =>
    split at hs <;> cases hs
    exact ⟨[], by simp [*], rfl⟩
  case h_2 =>
    cases hs
    refine ⟨_, rfl, ?_⟩
    split <;> simp [h]
  case h_3 =>
    unfold real at hs ⊢
    dsimp only at hs ⊢
    repeat' split at hs
    all_goals cases hs
    all_goals exact ⟨_, by simp only [*]; rfl, by simp [h]⟩

theorem Scanner.token?_elsewhere {a b : Scanner} (h : b.parens = a.parens) {opening : Bool} {p : Piece} {t : Token}
    (ht : a.token? opening p = .ok (some t)) :
    ∃ t', b.token? opening p = .ok (some t') ∧ t'.content = t.content := by
  unfold token? at ht ⊢
  rw [h]
  split at ht
  · cases ht
  · cases hp : p.payload with
    | error f => rw [hp] at ht; cases ht
    | ok v =>
      rw [hp] at ht
      cases ht
      exact ⟨_, rfl, rfl⟩

theorem Scanner.parens_after {a b : Scanner} (h : b.parens = a.parens) (p : Piece) :
    (b.after p).parens = (a.after p).parens := by
  simp [after, h]

namespace Stage

theorem next_ok {s s' : Stage} {p : Piece} (h : s.next p = .ok s') :
    (s.scanner.token? s.tracker.opening p = .ok none ∧ s' = { s with scanner := s.scanner.after p }) ∨
      ∃ t new d, Makes s p t ∧ s.indenter.step (s.tracker.step t).1 = .ok (new, d) ∧
        s' = ⟨s.scanner.after p, (s.tracker.step t).2, d, s.out ++ new⟩ := by
  unfold next at h
  split at h
  · cases h
  · cases h
    exact .inl ⟨‹_›, rfl⟩
  · split at h
    · cases h
    · cases h
      exact .inr ⟨_, _, _, ‹_›, ‹_›, rfl⟩

theorem next_skip {s : Stage} {p : Piece} (h : s.scanner.token? s.tracker.opening p = .ok none) :
    s.next p = .ok { s with scanner := s.scanner.after p } := by
  unfold next
  rw [h]

theorem token?_none_elsewhere {a b : Scanner} (h : b.parens = a.parens) {opening : Bool} {p : Piece}
    (hn : a.token? opening p = .ok none) : b.token? opening p = .ok none := by
  have hk := Scanner.token?_none hn
  unfold Scanner.token?
  rw [h, hk]

/-- Two stages that stand at different places of their texts, and of which the second has given out some tokens
before. -/
structure Twin (before : List Token) (s s' : Stage) : Prop where
  parens : s'.scanner.parens = s.scanner.parens
  tracker : s'.tracker = s.tracker
  indenter : s'.indenter = s.indenter
  out : s'.out.map Token.content = before.map Token.content ++ s.out.map Token.content

theorem Twin.next {before : List Token} {s s' s₁ : Stage} {p : Piece} (h : Twin before s s')
    (hn : s.next p = .ok s₁) : ∃ s₁', s'.next p = .ok s₁' ∧ Twin before s₁ s₁' := by
  rcases next_ok hn with ⟨ht, rfl⟩ | ⟨t, new, d, hm, hs, rfl⟩
  · rw [← h.tracker] at ht
    refine ⟨_, next_skip (token?_none_elsewhere h.parens ht), ?_⟩
    exact ⟨Scanner.parens_after h.parens p, h.tracker, h.indenter, h.out⟩
  · obtain ⟨t', hm', hc⟩ := Scanner.token?_elsewhere h.parens hm
    rw [← h.tracker] at hm'
    obtain ⟨hl, ht, hl'⟩ := LineTracker.step_content s.tracker hc
    obtain ⟨new', hs', hnew⟩ := Indenter.step_content (hc.trans (congrArg Token.content ht.symm)) hs
    refine ⟨⟨s'.scanner.after p, (s.tracker.step t').2, d, s'.out ++ new'⟩, ?_, ?_⟩
    · rw [next_eq hm', h.tracker, h.indenter, hl', hs']
    · exact ⟨Scanner.parens_after h.parens p, hl, rfl, by simp [h.out, hnew]⟩

theorem Twin.run {before : List Token} {s s' s₁ : Stage} {ps : List Piece} (h : Twin before s s')
    (hr : s.run ps = .ok s₁) : ∃ s₁', s'.run ps = .ok s₁' ∧ Twin before s₁ s₁' := by
  induction ps generalizing s s' with
  | nil =>
    cases hr
    exact ⟨s', rfl, h⟩
  | cons p ps ih =>
    obtain ⟨s₂, hn, hr⟩ := run_cons_ok hr
    obtain ⟨s₂', hn', h₂⟩ := h.next hn
    obtain ⟨s₃, hr₃, h₃⟩ := ih h₂ hr
    exact ⟨s₃, run_cons hn' hr₃, h₃⟩

/-! ## From one line to the next -/

theorem next_lineEnds {s : Stage} {e : Piece} (he : e.kind = .lineEnds) (hp : s.scanner.parens = 0) :
    ∃ n : Token, n.kind = .newline ∧
      s.next e = .ok ⟨s.scanner.after e, (s.tracker.step n).2, ⟨s.indenter.levels, 0, s.indenter.afterBlank⟩,
        s.out ++ if s.indenter.afterBlank || s.tracker.opening then [] else [n]⟩ := by
  refine ⟨⟨.newline, .text (String.ofList e.text), s.scanner.line, s.scanner.pos⟩, rfl, ?_⟩
  have hm : Makes s e ⟨.newline, .text (String.ofList e.text), s.scanner.line, s.scanner.pos⟩ := by
    simp [Makes, Scanner.token?, Piece.tokenKind?, Piece.payload, he, hp, Except.map]
  rw [next_eq hm, LineTracker.step_newline _ rfl, Indenter.step_newline _ rfl]

end Stage

theorem Indenter.Stacked.exists_base {levels : List Nat} (h : Stacked levels) :
    ∃ upper, levels = upper ++ [0] ∧ ∀ l ∈ upper, 0 < l := by
  obtain ⟨upper, rfl⟩ := List.getLast?_eq_some_iff.1 h.base
  refine ⟨upper, rfl, fun l hl => ?_⟩
  exact (List.pairwise_append.1 h.falling).2.2 l hl 0 (by simp)

/-- A token at the very start of its line closes all blocks. -/
theorem Indenter.real_flush {d : Indenter} (hs : Stacked d.levels) (hd : d.depth = 0) (t : Token) :
    d.real ⟨t, true, false⟩ = .ok (dedents (d.levels.length - 1) t.line ++ [t], ⟨[0], 0, false⟩) := by
  obtain ⟨upper, hl, hu⟩ := hs.exists_base
  unfold real
  dsimp only
  rw [if_neg (by simp), if_pos rfl, hd]
  cases upper with
  | nil =>
    have h0 : d.level = 0 := by simp [level, hl]
    rw [if_pos h0.symm]
    simp [hl, dedents]
  | cons top upper =>
    have h0 : d.level = top := by simp [level, hl]
    have ht := hu top List.mem_cons_self
    have hall : ∀ l ∈ top :: upper, decide (0 < l) = true := fun l hl => by simpa using hu l hl
    rw [if_neg (by omega), if_neg (by omega), hl, if_pos (by simp), List.takeWhile_append_of_pos hall,
      List.takeWhile_cons_of_neg (by simp), List.append_nil, List.drop_left]
    simp

namespace Stage

/-- A stage at the start of a line, where only blanks were read. The tracker knows whether a block is due. -/
structure AtLine (l : LineTracker) (out : List Token) (levels : List Nat) (depth : Nat) (s : Stage) : Prop where
  parens : s.scanner.parens = 0
  tracker : s.tracker = l
  levels : s.indenter.levels = levels
  depth : s.indenter.depth = depth
  out : s.out = out

section

variable {l : LineTracker} {out : List Token} {levels : List Nat} {depth : Nat} {s : Stage}

/-- Where nothing is written on a line, its end leads to the start of the next one. -/
theorem AtLine.lineEnds (h : AtLine l out levels depth s) (ho : l.opening = true) (hw : l.wait ≠ .atLineEnd) {e : Piece}
    (he : e.kind = .lineEnds) : ∃ s', s.next e = .ok s' ∧ AtLine l out levels 0 s' := by
  obtain ⟨n, hk, hn⟩ := next_lineEnds he h.parens
  refine ⟨_, hn, ?_, ?_, h.levels, rfl, ?_⟩
  · simp [Scanner.after, he, h.parens]
  · rw [LineTracker.step_newline _ hk, h.tracker, if_neg hw, ← ho]
  · simp [h.tracker, ho, h.out]

/-- Blanks are the depth of a line, and no others may follow them. -/
theorem AtLine.blanks (h : AtLine l out levels depth s) (ho : l.opening = true) {p : Piece} (hp : p.kind = .blanks) :
    s.next p = if depth = 0 then .ok ⟨s.scanner.after p, l, ⟨levels, p.text.length, true⟩, out⟩
      else .error .mixedBlanks := by
  have hm : Makes s p ⟨.blank, .text (String.ofList p.text), s.scanner.line, s.scanner.pos⟩ := by
    simp [Makes, Scanner.token?, Piece.tokenKind?, Piece.payload, hp, h.parens, h.tracker, ho, Except.map]
  rw [next_eq hm, LineTracker.step_blank _ rfl, Indenter.step_blank _ rfl, h.tracker, h.levels, h.depth, h.out, ← ho]
  by_cases hd : depth = 0 <;> simp [hd, Indenter.width]

end

/-- A stage at the start of a line where no block is due and only blanks were read. -/
structure Poised (out : List Token) (levels : List Nat) (depth : Nat) (s : Stage) : Prop where
  parens : s.scanner.parens = 0
  tracker : s.tracker = .start
  levels : s.indenter.levels = levels
  depth : s.indenter.depth = depth
  out : s.out = out

theorem poised_iff {out : List Token} {levels : List Nat} {depth : Nat} {s : Stage} :
    Poised out levels depth s ↔ AtLine .start out levels depth s :=
  ⟨fun h => ⟨h.parens, h.tracker, h.levels, h.depth, h.out⟩, fun h => ⟨h.parens, h.tracker, h.levels, h.depth, h.out⟩⟩

theorem Poised.lineEnds {out : List Token} {levels : List Nat} {depth : Nat} {s : Stage} (h : Poised out levels depth s)
    {e : Piece} (he : e.kind = .lineEnds) : ∃ s', s.next e = .ok s' ∧ Poised out levels 0 s' := by
  obtain ⟨s', hn, h'⟩ := (poised_iff.1 h).lineEnds rfl nofun he
  exact ⟨s', hn, poised_iff.2 h'⟩

/-- A token at the start of a line in no block goes on there, and in a block it closes all of them first. -/
theorem Poised.real {out : List Token} {levels : List Nat} {s : Stage} (h : Poised out levels 0 s)
    (hs : Indenter.Stacked levels) {p : Piece} {t : Token} (hm : Makes s p t) (hk : t.kind.isReal) :
    s.next p = .ok ⟨s.scanner.after p, (LineTracker.start.step t).2, ⟨[0], 0, false⟩,
      out ++ (Indenter.dedents (levels.length - 1) t.line ++ [t])⟩ := by
  have hl : (LineTracker.start.step t).1 = ⟨t, true, false⟩ := by
    rw [LineTracker.step_real _ hk]
    simp [LineTracker.start]
  rw [next_eq hm, h.tracker, hl, Indenter.step_real _ hk, Indenter.real_flush (h.levels ▸ hs) h.depth, h.levels, h.out]

/-- Where a text begins, a token that is written in it stands at the very start of its line. -/
theorem Poised.depth_eq {depth : Nat} {s s' : Stage} (h : Poised [] [0] depth s) {p : Piece} {t : Token}
    (hm : Makes s p t) (hk : t.kind.isReal) (hn : s.next p = .ok s') : depth = 0 := by
  have hd : ∀ {u}, Makes s p u → u.kind = t.kind := fun hu => by
    rw [Makes, hm] at hu
    cases hu
    rfl
  have ho : s.tracker.opening = true := by rw [h.tracker]; rfl
  -- No block is asked for and none is open, so the token can only stay where it is.
  rw [← h.depth]
  cases next_of_ok hn with
  | skipped hs => rw [(Scanner.token?_some hm).1] at hs; cases hs
  | blank hu hb => rw [← hd hu, hb] at hk; cases hk
  | dropped hu hb => rw [← hd hu, hb] at hk; cases hk
  | lineEnd hu hb => rw [← hd hu, hb] at hk; cases hk
  | opens _ _ _ hw => rw [h.tracker] at hw; cases hw
  | stays _ _ _ hs => rw [hs ho, Indenter.level, h.levels]; rfl
  | closes _ _ _ hs => rw [h.levels] at hs; simpa using hs

theorem Poised.blanks {out : List Token} {levels : List Nat} {depth : Nat} {s : Stage} (h : Poised out levels depth s)
    {p : Piece} (hp : p.kind = .blanks) :
    s.next p = if depth = 0 then .ok ⟨s.scanner.after p, .start, ⟨levels, p.text.length, true⟩, out⟩
      else .error .mixedBlanks :=
  (poised_iff.1 h).blanks rfl hp

theorem parens_of_skip {s : Scanner} {opening : Bool} {p : Piece} (h : s.token? opening p = .ok none) :
    (s.after p).parens = s.parens := by
  rcases Piece.tokenKind?_none (Scanner.token?_none h) with hp | ⟨hp, -⟩ | ⟨hp, -⟩ <;> simp [Scanner.after, hp]

/-- What a text begins with does the same behind another text: it is passed over, or it is the first token, and that
closes the blocks of the other text. -/
theorem Poised.next {before : List Token} {levels : List Nat} {depth : Nat} {s s' s₁ : Stage} {p : Piece}
    (h : Poised [] [0] depth s) (h' : Poised before levels depth s') (hl : Indenter.Stacked levels)
    (hn : s.next p = .ok s₁) :
    ∃ s₁', s'.next p = .ok s₁' ∧
      ((∃ depth', Poised [] [0] depth' s₁ ∧ Poised before levels depth' s₁') ∨
        Twin (before ++ Indenter.dedents (levels.length - 1) 1) s₁ s₁') := by
  have hp : s'.scanner.parens = s.scanner.parens := by rw [h.parens, h'.parens]
  have hr : s'.tracker = s.tracker := by rw [h.tracker, h'.tracker]
  rcases next_ok hn with ⟨ht, rfl⟩ | ⟨t, new, d, hm, -, -⟩
  · have ha := (parens_of_skip ht).trans h.parens
    rw [← hr] at ht
    refine ⟨_, next_skip (token?_none_elsewhere hp ht), .inl ⟨depth, ?_, ?_⟩⟩
    · exact ⟨ha, h.tracker, h.levels, h.depth, h.out⟩
    · exact ⟨(Scanner.parens_after hp p).trans ha, h'.tracker, h'.levels, h'.depth, h'.out⟩
  · rcases Makes.cases hm with ⟨hk, -⟩ | ⟨hk, -⟩ | ⟨-, hk⟩
    · have ha : (s.scanner.after p).parens = 0 := by simp [Scanner.after, hk, h.parens]
      have hn' := h'.blanks hk
      rw [h.blanks hk] at hn
      split at hn <;> cases hn
      rw [if_pos ‹_›] at hn'
      exact ⟨_, hn', .inl ⟨p.text.length, ⟨ha, rfl, rfl, rfl, rfl⟩,
        ⟨(Scanner.parens_after hp p).trans ha, rfl, rfl, rfl, rfl⟩⟩⟩
    · obtain ⟨s₂, hn₂, h₂⟩ := h.lineEnds hk
      obtain ⟨s₂', hn₂', h₂'⟩ := h'.lineEnds hk
      cases hn.symm.trans hn₂
      exact ⟨s₂', hn₂', .inl ⟨0, h₂, h₂'⟩⟩
    · obtain ⟨t', hm', hc⟩ := Scanner.token?_elsewhere hp hm
      rw [← hr] at hm'
      have hk' : t'.kind.isReal := by rwa [show t'.kind = t.kind from congrArg Prod.fst hc]
      cases h.depth_eq hm hk hn
      cases hn.symm.trans (h.real .start hm hk)
      refine ⟨_, h'.real hl hm' hk', .inr ⟨Scanner.parens_after hp p, (LineTracker.step_content .start hc).1, rfl, ?_⟩⟩
      simp [hc]

theorem Poised.run {before : List Token} {levels : List Nat} {depth : Nat} {s s' s₁ : Stage} {ps : List Piece}
    (h : Poised [] [0] depth s) (h' : Poised before levels depth s') (hl : Indenter.Stacked levels)
    (hr : s.run ps = .ok s₁) (ho : s₁.out ≠ []) :
    ∃ s₁', s'.run ps = .ok s₁' ∧ Twin (before ++ Indenter.dedents (levels.length - 1) 1) s₁ s₁' := by
  induction ps generalizing s s' depth with
  | nil =>
    cases hr
    exact absurd h.out ho
  | cons p ps ih =>
    obtain ⟨s₂, hn, hr⟩ := run_cons_ok hr
    -- The two stages stay at the start of a line until the first token, and are twins from there on.
    obtain ⟨s₂', hn', ⟨depth', h₂, h₂'⟩ | h₂⟩ := h.next h' hl hn
    · obtain ⟨s₃, hr₃, h₃⟩ := ih h₂ h₂' hr
      exact ⟨s₃, run_cons hn' hr₃, h₃⟩
    · obtain ⟨s₃, hr₃, h₃⟩ := h₂.run hr
      exact ⟨s₃, run_cons hn' hr₃, h₃⟩

end Stage

/-! ## Two texts -/

/-- How tokens change where the last line is ended, once more or for the first time. -/
inductive LineEnded (ts : List Token) : List Token → Prop
  | same : LineEnded ts ts
  | ended {pre : List Token} {n : Token} (hr : EndsReal pre) (hn : n.kind = .newline)
      (h : ts = pre ∨ ∃ m : Token, m.kind = .newline ∧ ts = pre ++ [m]) : LineEnded ts (pre ++ [n])

theorem LineTracker.wait_no {ts : List Token} (ha : ¬EndsAsking ts)
    (hl : ∀ pre t, ts = pre ++ [t] → t.kind.asksBlock = false) : (behind ts.reverse).wait = .no := by
  cases hw : (behind ts.reverse).wait with
  | no => rfl
  | now => exact absurd ((wait_behind ts).1 hw) ha
  | atLineEnd =>
    rcases List.eq_nil_or_concat ts with rfl | ⟨pre, t, rfl⟩
    · cases hw
    · have ht := hl pre t (by simp)
      rw [List.concat_eq_append, List.reverse_append, List.reverse_singleton, List.singleton_append, behind, ht,
        if_neg Bool.false_ne_true] at hw
      repeat' split at hw
      all_goals cases hw

namespace Stage

/-- The end of a line in which nothing is open leads to the start of the next one. -/
theorem Tracks.lineEnds {s : Stage} (h : Tracks s) (hp : s.scanner.parens = 0) (hw : s.tracker.wait = .no) {e : Piece}
    (he : e.kind = .lineEnds) :
    ∃ out s', s.next e = .ok s' ∧ Poised out s.indenter.levels 0 s' ∧
      (s.tracker.opening = true ∧ out = s.out ∨
        s.tracker.opening = false ∧ EndsReal s.out ∧ ∃ n, n.kind = .newline ∧ out = s.out ++ [n]) := by
  obtain ⟨n, hk, hn⟩ := next_lineEnds he hp
  refine ⟨_, _, hn, ⟨?_, ?_, rfl, rfl, rfl⟩, ?_⟩
  · simp [Scanner.after, he, hp]
  · rw [LineTracker.step_newline _ hk, hw]
    rfl
  · cases ho : s.tracker.opening with
    | true => exact .inl ⟨rfl, by simp⟩
    | false =>
      have hb : s.indenter.afterBlank = false := by
        by_contra hb
        rw [h.blank (by simpa using hb)] at ho
        cases ho
      exact .inr ⟨rfl, h.written ho, n, hk, by simp [hb]⟩

theorem run_of_append {s s₂ : Stage} {ps qs : List Piece} (h : s.run (ps ++ qs) = .ok s₂) :
    ∃ s₁, s.run ps = .ok s₁ ∧ s₁.run qs = .ok s₂ := by
  rw [run_append] at h
  split at h
  · cases h
  · exact ⟨_, ‹_›, h⟩

theorem run_single {s s' : Stage} {p : Piece} (h : s.run [p] = .ok s') : s.next p = .ok s' := by
  obtain ⟨s₁, hn, hr⟩ := run_cons_ok h
  cases hr
  exact hn

theorem Poised.start (line : Nat) : Poised [] [0] 0 (.start line) :=
  ⟨rfl, rfl, rfl, rfl, rfl⟩

/-- Line ends before the first line do nothing. -/
theorem run_leading {line : Nat} {lead qs : List Piece} {s : Stage} (hl : Piece.AtMostLineEnds lead)
    (hr : (Stage.start line).run (lead ++ qs) = .ok s) : ∃ s₀, Poised [] [0] 0 s₀ ∧ s₀.run qs = .ok s := by
  obtain ⟨s₀, h₀, hq⟩ := run_of_append hr
  refine ⟨s₀, ?_, hq⟩
  cases hl with
  | nothing =>
    cases h₀
    exact .start line
  | lineEnds he =>
    obtain ⟨s₁, hn, h₁⟩ := (Poised.start line).lineEnds he
    cases (run_single h₀).symm.trans hn
    exact h₁

/-- Line ends behind the last line and more line ends are as good as all of them at once. -/
theorem run_trailing {line : Nat} {text : List Char} {ps tail : List Piece} {s : Stage} {e : Piece}
    (ht : Piece.AtMostLineEnds tail) (he : e.kind = .lineEnds) (hc : (Piece.cut text).1 = ps ++ tail)
    (hr : (Stage.start line).run (ps ++ tail) = .ok s) (hp : s.scanner.parens = 0) (hw : s.tracker.wait = .no) :
    ∃ out s', (Stage.start line).run (ps ++ [e]) = .ok s' ∧ Poised out s.indenter.levels 0 s' ∧
      LineEnded s.out out := by
  obtain ⟨s₀, h₀, ht₀⟩ := run_of_append hr
  have hs₀ : Reached line text ps s₀ := ⟨⟨tail, hc.symm⟩, h₀⟩
  cases ht with
  | nothing =>
    cases ht₀
    obtain ⟨out, s', hn, h', ho⟩ := hs₀.tracks.lineEnds hp hw he
    refine ⟨out, s', run_snoc h₀ hn, h', ?_⟩
    rcases ho with ⟨-, rfl⟩ | ⟨-, hre, n, hk, rfl⟩
    · exact .same
    · exact .ended hre hk (.inl rfl)
  | @lineEnds e' he' =>
    have hn' := run_single ht₀
    -- The line ends of the text itself are the end of a line too: they stand in no parentheses.
    have hp₀ : s₀.scanner.parens = 0 := by
      have ha : s.scanner = s₀.scanner.after e' := by
        rcases next_ok hn' with ⟨-, rfl⟩ | ⟨_, _, _, -, -, rfl⟩ <;> rfl
      simpa [ha, Scanner.after, he'] using hp
    have hw₀ : s₀.tracker.wait = .no := by
      obtain ⟨m, hm, hn₁⟩ := next_lineEnds he' hp₀
      cases hn'.symm.trans hn₁
      rw [LineTracker.step_newline _ hm] at hw
      dsimp only at hw
      split at hw
      · cases hw
      · exact hw
    obtain ⟨out₁, s₁, hn₁, h₁, ho₁⟩ := hs₀.tracks.lineEnds hp₀ hw₀ he'
    obtain ⟨out, s', hn, h', ho⟩ := hs₀.tracks.lineEnds hp₀ hw₀ he
    cases hn'.symm.trans hn₁
    refine ⟨out, s', run_snoc h₀ hn, h₁.levels ▸ h', ?_⟩
    rw [h₁.out]
    rcases ho with ⟨ho, rfl⟩ | ⟨ho, hre, n, hk, rfl⟩ <;> rw [ho] at ho₁
    · obtain rfl : out₁ = s₀.out := by simpa using ho₁
      exact .same
    · obtain ⟨-, m, hm, rfl⟩ : _ ∧ ∃ m, m.kind = .newline ∧ out₁ = s₀.out ++ [m] := by simpa using ho₁
      exact .ended hre hk (.inr ⟨m, hm, rfl⟩)

/-- The lexer takes a text behind another one as it takes it alone, once the line of the other is ended and its blocks
are closed. -/
theorem run_joined {line line' : Nat} {a b : List Char} {sa sb : Stage} (hca : (Piece.cut a).2 = [])
    (hra : (Stage.start line).run (Piece.cut a).1 = .ok sa) (hp : sa.scanner.parens = 0)
    (hw : sa.tracker.wait = .no) (hrb : (Stage.start line').run (Piece.cut b).1 = .ok sb) (hb : sb.out ≠ []) :
    ∃ out s, LineEnded sa.out out ∧ (Piece.cut (a ++ '\n' :: b)).2 = (Piece.cut b).2 ∧
      (Stage.start line).run (Piece.cut (a ++ '\n' :: b)).1 = .ok s ∧
      Twin (out ++ Indenter.dedents (sa.indenter.levels.length - 1) 1) sb s := by
  obtain ⟨ps, tail, e, lead, qs, ht, he, hl, hca', hcb, hj⟩ := Piece.cut_joined hca b
  have hs : Reached line a (Piece.cut a).1 sa := ⟨List.prefix_refl _, hra⟩
  rw [hcb] at hrb
  obtain ⟨s₀, h₀, hr₀⟩ := run_leading hl hrb
  rw [hca'] at hra
  obtain ⟨out, s₁, hr₁, h₁, ho⟩ := run_trailing ht he hca' hra hp hw
  obtain ⟨s, hr, hs⟩ := h₀.run h₁ hs.nested.stacked hr₀ hb
  refine ⟨out, s, ho, by rw [hj], ?_, hs⟩
  rw [hj, ← List.singleton_append, ← List.append_assoc, run_append, hr₁]
  exact hr

end Stage

/-- A text has no fault if all of it is cut into pieces and all of them can be taken. -/
theorem tokens_of_run {line : Nat} {text : List Char} {s : Stage} (hc : (Piece.cut text).2 = [])
    (hr : (Stage.start line).run (Piece.cut text).1 = .ok s) (mark : Bool) :
    (tokenize line mark text).fault = none ∧ ∃ n m, tokens line mark text =
      s.out ++ Indenter.dedents (s.indenter.levels.length - 1) n ++ if mark then [endMarker m] else [] := by
  have ht := tokenize_eq_whole line mark text
  obtain ⟨seen, put, hw⟩ := Stage.whole_run mark (Piece.cut text).2 none none hr []
  obtain ⟨n, m, he⟩ := Stage.whole_end mark (s := s) seen put
  rw [List.append_nil] at hw
  rw [hw, hc, he] at ht
  exact ⟨congrArg Prod.snd ht, n, m, congrArg Prod.fst ht⟩

theorem run_of_fault {line : Nat} {mark : Bool} {text : List Char} (hf : (tokenize line mark text).fault = none) :
    (Piece.cut text).2 = [] ∧ ∃ s, (Stage.start line).run (Piece.cut text).1 = .ok s := by
  obtain ⟨ps, rest, s, hp, hr, hc⟩ := Stage.run_ends (.start line) (Piece.cut text).1
  have hs : Reached line text ps s := ⟨⟨rest, hp.symm⟩, hr⟩
  rcases hc with rfl | ⟨p, more, f, rfl, hn⟩
  · rw [List.append_nil] at hp
    refine ⟨?_, s, hp ▸ hr⟩
    have ht := tokenize_eq_whole line mark text
    obtain ⟨seen, put, hw⟩ := Stage.whole_run mark (Piece.cut text).2 none none hr []
    rw [hp, ← List.append_nil ps, hw] at ht
    rcases Stage.whole_nil mark (Piece.cut text).2 seen put with ⟨hl, -⟩ | ⟨f, he⟩
    · exact hl
    · rw [he] at ht
      cases hf.symm.trans (congrArg Prod.snd ht)
  · cases hf.symm.trans (hs.fault ⟨more, by simp [hp]⟩ hn mark).2

end Pseudocode
