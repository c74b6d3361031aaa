import Pseudocode.Proofs.Block
import Pseudocode.Proofs.Shape

/-!
# Lines and the blocks they lie in

The text of a line is read piece by piece. While nothing but blanks was read of it, the indenter knows how many they
are; otherwise something that is not blank stands there, unless a parenthesis is open and lines do not count
(`Stage.InLine`). So the first token of a line brings up the level of its indentation (`Gives.level`), and lines
that lie in one block are indented alike (`Gives.aligned`). Every token that is written in a text is given out by a
stage (`gives_tokens`), so with what is known of the blocks this is the block structure of the text:
`blockStructure_tokens`.
-/

namespace Pseudocode

/-! ## Lines of the text -/

/-- The part of a text behind its last line end. -/
def lastLine (cs : List Char) : List Char :=
  (cs.reverse.takeWhile (· != '\n')).reverse

theorem lastLine_append (cs : List Char) {ds : List Char} (h : '\n' ∉ ds) :
    lastLine (cs ++ ds) = lastLine cs ++ ds := by
  have hd : ∀ c ∈ ds.reverse, (c != '\n') = true := by
    intro c hc
    rw [bne_iff_ne]
    rintro rfl
    exact h (List.mem_reverse.1 hc)
  rw [lastLine, List.reverse_append, List.takeWhile_append_of_pos hd, List.reverse_append, List.reverse_reverse]
  rfl

theorem lastLine_lineEnds (cs : List Char) {ds : List Char} (hd : ds ≠ []) (h : ∀ c ∈ ds, c = '\n') :
    lastLine (cs ++ ds) = [] := by
  have hl : ds.getLast hd = '\n' := h _ (List.getLast_mem hd)
  rw [lastLine, ← List.dropLast_concat_getLast hd, hl]
  simp

/-- Nothing but blanks. -/
def Blanks (cs : List Char) : Prop :=
  ∀ c ∈ cs, c = ' ' ∨ c = '\t'

theorem Quotable.no_lineEnd {cs : List Char} (h : Quotable cs) : '\n' ∉ cs := by
  induction h with
  | nil => nofun
  | plain _ _ hn _ ih =>
    rw [List.mem_cons, not_or]
    exact ⟨hn.symm, ih⟩
  | escaped hn _ ih =>
    rw [List.mem_cons, List.mem_cons, not_or, not_or]
    exact ⟨by decide, hn.symm, ih⟩

namespace Piece

theorem not_blanks_of_all {q : Char → Prop} {cs : List Char} (hne : cs ≠ []) (h : ∀ c ∈ cs, q c) (hs : ¬q ' ')
    (ht : ¬q '\t') : ¬Blanks cs := by
  obtain ⟨c, rest, rfl⟩ := List.exists_cons_of_ne_nil hne
  intro hb
  rcases hb c List.mem_cons_self with rfl | rfl
  · exact hs (h _ List.mem_cons_self)
  · exact ht (h _ List.mem_cons_self)

/-- A piece that makes a token stands within a line, and it is not blank. -/
theorem solid_covers {k : PieceKind} {cs : List Char} (hk : k.isSolid) (h : k.Covers cs) :
    '\n' ∉ cs ∧ ¬Blanks cs := by
  cases k with
  | blanks | lineEnds | comment => cases hk
  | word =>
    exact ⟨fun hn => absurd (h.2 _ hn) (by decide), not_blanks_of_all h.1 h.2 (by decide) (by decide)⟩
  | number =>
    exact ⟨fun hn => absurd (h.2 _ hn) (by decide), not_blanks_of_all h.1 h.2 (by decide) (by decide)⟩
  | string =>
    obtain ⟨ds, hd, he⟩ := h
    rw [String.toList_ofList] at he
    subst he
    refine ⟨?_, fun hb => absurd (hb '"' List.mem_cons_self) (by decide)⟩
    simpa using hd.no_lineEnd
  | comparison =>
    have hc : cs.all (· ∈ ['=', '!', '<', '>']) ∧ cs ≠ [] := by
      rw [← String.toList_ofList (l := cs)]
      simp only [PieceKind.Covers, Tree.isComparing, Bool.or_eq_true, beq_iff_eq] at h
      generalize String.ofList cs = op at h ⊢
      rcases h with ((((rfl | rfl) | rfl) | rfl) | rfl) | rfl <;> exact ⟨rfl, nofun⟩
    have hq := List.all_eq_true.1 hc.1
    exact ⟨fun hn => absurd (hq _ hn) (by decide), not_blanks_of_all hc.2 hq (by decide) (by decide)⟩
  | _ =>
    cases h
    exact ⟨by simp, fun hb => absurd (hb _ List.mem_cons_self) (by decide)⟩

theorem fst_cut {cs rest : List Char} {p : Piece} (h : first? cs = some (p, rest)) :
    (cut cs).1 = p :: (cut rest).1 := by
  rw [cut]
  split
  case h_1 hn => rw [hn] at h; cases h
  case h_2 hs => rw [hs] at h; cases h; rfl

/-- Behind a comment the line ends. -/
theorem rest_comment {cs rest : List Char} {p : Piece} (h : first? cs = some (p, rest)) (hk : p.kind = .comment) :
    rest = [] ∨ ∃ more, rest = '\n' :: more := by
  cases cs with
  | nil => cases h
  | cons c cs =>
    rw [first?] at h
    split at h
    · cases h; cases hk
    · split at h
      · cases h; cases hk
      · unfold mark? at h
        split at h
        case h_4 =>
          cases h
          cases hd : cs.dropWhile (· != '\n') with
          | nil => exact .inl rfl
          | cons d more =>
            have hf := List.head?_dropWhile_not (· != '\n') cs
            rw [hd] at hf
            have hd : d = '\n' := by simpa using hf
            exact .inr ⟨more, by rw [hd]⟩
        case h_5 =>
          obtain ⟨_, _, he⟩ := Option.map_eq_some_iff.1 h
          cases he; cases hk
        case h_14 | h_15 | h_16 | h_17 =>
          unfold comparison? at h
          split at h
          · cases h; cases hk
          · split at h <;> cases h
            cases hk
        case h_18 => cases h
        all_goals cases h; cases hk

theorem lineEnds_behind_comment {cs : List Char} {pre post : List Piece} {p q : Piece}
    (h : (cut cs).1 = pre ++ p :: q :: post) (hp : p.kind = .comment) : q.kind = .lineEnds := by
  fun_induction cut cs generalizing pre with
  | case1 => cases pre <;> cases h
  | case2 cs p₀ rest h₀ _ ps left hc ih =>
    rw [hc] at ih
    cases pre with
    | cons _ pre => cases h; exact ih rfl
    | nil =>
      cases h
      have hr : (cut rest).1 = q :: post := congrArg Prod.fst hc
      rcases rest_comment h₀ hp with rfl | ⟨more, rfl⟩
      · rw [cut] at hr
        cases hr
      · rw [fst_cut (p := (run .lineEnds (· == '\n') '\n' more).1) rfl] at hr
        cases hr
        rfl

end Piece

/-! ## Where a stage stands in its line -/

/-- How many parentheses are open; less than none if more were closed. -/
def openParens (ts : List Token) : Int :=
  amount .leftParen ts - amount .rightParen ts

theorem openParens_append (ts us : List Token) : openParens (ts ++ us) = openParens ts + openParens us := by
  simp only [openParens, amount_append]
  omega

theorem openParens_layout {ts : List Token} (h : ∀ t ∈ ts, t.kind.isReal = false) : openParens ts = 0 := by
  rw [openParens, amount_others fun t ht => (TokenKind.isReal_ne rfl (h t ht)).symm,
    amount_others fun t ht => (TokenKind.isReal_ne rfl (h t ht)).symm]
  rfl

theorem Piece.kind_paren {p : Piece} {opening nested : Bool} {k : TokenKind}
    (h : p.tokenKind? opening nested = some k) :
    (k = .leftParen ↔ p.kind = .leftParen) ∧ (k = .rightParen ↔ p.kind = .rightParen) := by
  obtain ⟨kind, cs⟩ := p
  unfold tokenKind? at h
  cases kind with
  | blanks | lineEnds => dsimp only at h; split at h <;> cases h; simp
  | word =>
    cases h
    unfold wordKind
    split <;> simp
  | comment => cases h
  | _ => cases h; simp

theorem Piece.parens_after (s : Scanner) {p : Piece} {opening nested : Bool} {t : Token}
    (h : p.tokenKind? opening nested = some t.kind) : (s.after p).parens = s.parens + openParens [t] := by
  obtain ⟨hl, hr⟩ := kind_paren h
  simp only [openParens, amount_single, Scanner.after, hl, hr]
  generalize p.kind = k
  cases k <;> simp
  rfl

namespace Stage

/-- Where a stage stands in its line: with nothing but blanks before it or, outside of parentheses, something else. -/
structure InLine (ps : List Piece) (s : Stage) : Prop where
  pos : s.scanner.pos = (ps.flatMap Piece.text).length
  parens : s.scanner.parens = openParens s.out
  flat : s.tracker.opening = true → s.scanner.parens = 0
  leading : s.tracker.opening = true → (∀ q ∈ ps.getLast?, q.kind ≠ .comment) →
    Blanks (lastLine (ps.flatMap Piece.text)) ∧ s.indenter.depth = (lastLine (ps.flatMap Piece.text)).length
  written : s.tracker.opening = false → s.scanner.parens = 0 → ¬Blanks (lastLine (ps.flatMap Piece.text))

theorem InLine.start (line : Nat) : InLine [] (.start line) :=
  ⟨rfl, rfl, fun _ => rfl, fun _ _ => ⟨nofun, rfl⟩, nofun⟩

section

variable {ps : List Piece} {p : Piece} {s : Stage}

theorem flatMap_snoc : (ps ++ [p]).flatMap Piece.text = ps.flatMap Piece.text ++ p.text := by
  rw [List.flatMap_append, List.flatMap_singleton]

theorem InLine.pos_after (h : InLine ps s) : (s.scanner.after p).pos = ((ps ++ [p]).flatMap Piece.text).length := by
  rw [flatMap_snoc, List.length_append, ← h.pos]
  rfl

theorem Makes.unique {t u : Token} (hm : Makes s p t) (hu : Makes s p u) : t = u := by
  rw [Makes, hm] at hu
  cases hu
  rfl

theorem Makes.of_blank {t : Token} (hm : Makes s p t) (hk : t.kind = .blank) : p.kind = .blanks := by
  rcases hm.cases with ⟨hp, -⟩ | ⟨-, hk', -⟩ | ⟨-, hk'⟩
  · exact hp
  · rw [hk] at hk'
    cases hk'
  · rw [hk] at hk'
    cases hk'

theorem Makes.of_newline {t : Token} (hm : Makes s p t) (hk : t.kind = .newline) :
    p.kind = .lineEnds ∧ s.scanner.parens = 0 := by
  rcases hm.cases with ⟨-, hk', -⟩ | ⟨hp, -, h0⟩ | ⟨-, hk'⟩
  · rw [hk] at hk'
    cases hk'
  · exact ⟨hp, h0⟩
  · rw [hk] at hk'
    cases hk'

theorem Makes.of_real {t : Token} (hm : Makes s p t) (hk : t.kind.isReal) : p.kind.isSolid := by
  rcases hm.cases with ⟨-, hk', -⟩ | ⟨-, hk', -⟩ | ⟨hp, -⟩
  · rw [hk'] at hk
    cases hk
  · rw [hk'] at hk
    cases hk
  · exact hp

/-- A stage behind something that is not blank. -/
theorem InLine.of_written (hp : s.scanner.pos = (ps.flatMap Piece.text).length)
    (hr : s.scanner.parens = openParens s.out) (ho : s.tracker.opening = false)
    (hw : s.scanner.parens = 0 → ¬Blanks (lastLine (ps.flatMap Piece.text))) : InLine ps s := by
  refine ⟨hp, hr, ?_, ?_, fun _ => hw⟩
  · intro h
    rw [ho] at h
    cases h
  · intro h
    rw [ho] at h
    cases h

theorem InLine.written_append (h : InLine ps s) (hn : '\n' ∉ p.text) (ho : s.tracker.opening = false)
    (h0 : s.scanner.parens = 0) : ¬Blanks (lastLine ((ps ++ [p]).flatMap Piece.text)) := by
  rw [flatMap_snoc, lastLine_append _ hn]
  exact fun hb => h.written ho h0 fun c hc => hb c (List.mem_append_left _ hc)

theorem InLine.skip (h : InLine ps s) (hc : p.kind.Covers p.text)
    (hk : p.tokenKind? s.tracker.opening (s.scanner.parens != 0) = none) :
    InLine (ps ++ [p]) { s with scanner := s.scanner.after p } := by
  have hk := Piece.tokenKind?_none hk
  have ha : (s.scanner.after p).parens = s.scanner.parens := by
    rcases hk with hp | ⟨hp, -⟩ | ⟨hp, -⟩ <;> simp [Scanner.after, hp]
  rcases hk with hp | ⟨hp, ho⟩ | ⟨hp, hn⟩
  · rw [hp] at hc
    refine ⟨h.pos_after, ha.trans h.parens, fun ho => ha.trans (h.flat ho), ?_,
      fun ho h0 => h.written_append hc ho (ha ▸ h0)⟩
    intro _ hl
    exact absurd hp (hl p (by simp))
  · have ho : s.tracker.opening = false := by
      cases hs : s.tracker.opening with
      | false => rfl
      | true => simp [hs, h.flat hs] at ho
    have hn : '\n' ∉ p.text := by
      rw [hp] at hc
      intro hn
      exact absurd (hc _ hn) (by decide)
    exact .of_written h.pos_after (ha.trans h.parens) ho fun h0 => h.written_append hn ho (ha ▸ h0)
  · have h0 : s.scanner.parens ≠ 0 := by simpa using hn
    have ho : s.tracker.opening = false := by
      cases hs : s.tracker.opening with
      | false => rfl
      | true => exact absurd (h.flat hs) h0
    exact .of_written h.pos_after (ha.trans h.parens) ho fun h0' => absurd (ha ▸ h0') h0

/-- Behind blanks at the start of a line. -/
theorem InLine.indent (h : InLine ps s) (hc : p.kind.Covers p.text)
    (hl : ∀ q ∈ ps.getLast?, q.kind ≠ .comment) {t : Token} (hm : Makes s p t) (hk : t.kind = .blank)
    (ho : s.tracker.opening = true) (hd : s.indenter.depth = 0) :
    InLine (ps ++ [p]) ⟨s.scanner.after p, s.tracker, ⟨s.indenter.levels, Indenter.width t, true⟩, s.out⟩ := by
  have hp := hm.of_blank hk
  have ha : (s.scanner.after p).parens = s.scanner.parens := by simp [Scanner.after, hp]
  rw [hp] at hc
  have hn : '\n' ∉ p.text := fun hn => absurd (hc _ hn) (by decide)
  have hw : Indenter.width t = p.text.length := by
    have hv := (Scanner.token?_some hm).2.1
    rw [Piece.payload, if_neg (by simp [hp])] at hv
    rw [Indenter.width, ← Except.ok.inj hv]
    simp
  refine ⟨h.pos_after, ha.trans h.parens, fun _ => ha.trans (h.flat ho), fun _ _ => ?_, ?_⟩
  · have hz : lastLine (ps.flatMap Piece.text) = [] :=
      List.eq_nil_of_length_eq_zero ((h.leading ho hl).2.symm.trans hd)
    rw [flatMap_snoc, lastLine_append _ hn, hz]
    exact ⟨hc, hw⟩
  · intro ho'
    rw [ho] at ho'
    cases ho'

/-- Behind the end of a line. -/
theorem InLine.lineEnd (h : InLine ps s) (hc : p.kind.Covers p.text) {t : Token} (hm : Makes s p t)
    (hk : t.kind = .newline) (b : Bool) {out : List Token} (ho : openParens out = openParens s.out) :
    InLine (ps ++ [p]) ⟨s.scanner.after p, (s.tracker.step t).2, ⟨s.indenter.levels, 0, b⟩, out⟩ := by
  have hp := hm.of_newline hk
  have ha : (s.scanner.after p).parens = s.scanner.parens := by simp [Scanner.after, hp.1]
  rw [hp.1] at hc
  rw [LineTracker.step_newline _ hk]
  refine ⟨h.pos_after, ha.trans (h.parens.trans ho.symm), fun _ => ha.trans hp.2, fun _ _ => ?_, nofun⟩
  rw [flatMap_snoc, lastLine_lineEnds _ hc.1 hc.2]
  exact ⟨nofun, rfl⟩

/-- Behind a token that is written in a line. -/
theorem InLine.real (h : InLine ps s) (hc : p.kind.Covers p.text) {t : Token} (hm : Makes s p t)
    (hk : t.kind.isReal) (d : Indenter) (new : List Token) (hnew : ∀ u ∈ new, u.kind.isReal = false) :
    InLine (ps ++ [p]) ⟨s.scanner.after p, (s.tracker.step t).2, d, s.out ++ (new ++ [t])⟩ := by
  have hr : (s.scanner.after p).parens = openParens (s.out ++ (new ++ [t])) := by
    rw [Piece.parens_after s.scanner (Scanner.token?_some hm).1, openParens_append, openParens_append,
      openParens_layout hnew, Int.zero_add, h.parens]
  obtain ⟨hn, hb⟩ := Piece.solid_covers (hm.of_real hk) hc
  rw [LineTracker.step_real _ hk]
  refine .of_written h.pos_after hr rfl fun _ => ?_
  rw [flatMap_snoc, lastLine_append _ hn]
  exact fun hb' => hb fun c hc => hb' c (List.mem_append_right _ hc)

theorem InLine.next {s' : Stage} (h : InLine ps s) (hc : p.kind.Covers p.text)
    (hl : ∀ q ∈ ps.getLast?, q.kind = .comment → p.kind = .lineEnds) (hn : Next s p s') : InLine (ps ++ [p]) s' := by
  cases hn with
  | skipped hk => exact h.skip hc hk
  | blank hm hk ho hd =>
    refine h.indent hc (fun q hq hk' => ?_) hm hk ho hd
    have hp := hl q hq hk'
    rw [hm.of_blank hk] at hp
    cases hp
  | dropped hm hk => exact h.lineEnd hc hm hk _ rfl
  | lineEnd hm hk =>
    refine h.lineEnd hc hm hk _ ?_
    rw [openParens_append, openParens_layout (List.forall_mem_singleton.2 (by rw [hk]; rfl)), Int.add_zero]
  | opens hm hk => exact h.real hc hm hk _ [_] (List.forall_mem_singleton.2 rfl)
  | stays hm hk => exact h.real hc hm hk _ [] nofun
  | closes hm hk => exact h.real hc hm hk _ _ fun u hu => by rw [Indenter.kind_dedents hu]; rfl

end

/-- The first token of a line brings up its level. -/
theorem Next.level_depth {s s' : Stage} {p : Piece} {t : Token} (hn : Next s p s') (hm : Makes s p t)
    (hk : t.kind.isReal) (hs : Indenter.Stacked s.indenter.levels) (ho : s.tracker.opening = true) :
    s'.indenter.level = s.indenter.depth := by
  cases hn with
  | skipped h => rw [(Scanner.token?_some hm).1] at h; cases h
  | blank hm' hk' | dropped hm' hk' | lineEnd hm' hk' =>
    rw [hm.unique hm', hk'] at hk
    cases hk
  | opens => rfl
  | stays _ _ _ hd => exact (hd ho).symm
  | closes _ _ _ hd =>
    obtain ⟨rest, hr⟩ := Indenter.dropWhile_deeper hs.falling hd
    show (s.indenter.levels.dropWhile _).headD 0 = _
    rw [hr]
    rfl

end Stage

section

variable {line : Nat} {text : List Char} {ps : List Piece} {s : Stage}

theorem lineEnds_next {p q : Piece} (hp : ps ++ [p] <+: (Piece.cut text).1) (hq : q ∈ ps.getLast?)
    (hk : q.kind = .comment) : p.kind = .lineEnds := by
  obtain ⟨pre, rfl⟩ := List.getLast?_eq_some_iff.1 hq
  obtain ⟨post, hpost⟩ := hp
  have hc : (Piece.cut text).1 = pre ++ q :: p :: post := by
    rw [← hpost]
    simp
  exact Piece.lineEnds_behind_comment hc hk

theorem Reached.inLine (h : Reached line text ps s) : s.InLine ps :=
  h.keeps (I := fun ps s => s.InLine ps) (Stage.InLine.start line) fun _ h' hn hs =>
    hs.next (Piece.covers_cut text _ (h'.pieces.subset (by simp))) (fun _ => lineEnds_next h'.pieces) hn

theorem Reached.run_on {qs : List Piece} {s' : Stage} (h : Reached line text ps s)
    (h' : Reached line text (ps ++ qs) s') : s.run qs = .ok s' := by
  have hr := h'.run
  rwa [Stage.run_append, h.run] at hr

theorem Reached.next_ok {p : Piece} {s' : Stage} (h : Reached line text ps s)
    (h' : Reached line text (ps ++ [p]) s') : s.next p = .ok s' := by
  have hr := h.run_on h'
  rw [Stage.run] at hr
  split at hr
  · cases hr
  · cases hr
    assumption

/-- What stands before a position on its line. -/
def lineBefore (text : List Char) (pos : Nat) : List Char :=
  lastLine (text.take pos)

theorem Reached.lineBefore_pos (h : Reached line text ps s) :
    lineBefore text s.scanner.pos = lastLine (ps.flatMap Piece.text) := by
  obtain ⟨rest, hr⟩ := h.pieces
  have ht := Piece.text_cut text
  rw [← hr, List.flatMap_append, List.append_assoc] at ht
  rw [lineBefore, h.inLine.pos, ← ht, List.take_left]

theorem Reached.out_mono {ps' : List Piece} {s' : Stage} (h : Reached line text ps s) (h' : Reached line text ps' s')
    (hp : ps <+: ps') : s.out <+: s'.out := by
  obtain ⟨qs, rfl⟩ := hp
  obtain ⟨seg, ho, -⟩ := Stage.run_levels (h.run_on h')
  exact ⟨seg, ho.symm⟩

/-- Where no token was given out in between, the same blocks are open. -/
theorem Reached.levels_behind {ps' : List Piece} {s' : Stage} (h : Reached line text ps s)
    (h' : Reached line text ps' s') (hp : ps <+: ps') (ho : s'.out = s.out) :
    s'.indenter.levels = s.indenter.levels := by
  obtain ⟨qs, rfl⟩ := hp
  obtain ⟨seg, hs, hc, hl⟩ := Stage.run_levels (h.run_on h')
  cases List.self_eq_append_right.1 (ho.symm.trans hs)
  have hn : Opened [] := fun pre hp => by rw [List.prefix_nil.1 hp]; exact Nat.le_refl 0
  exact ((hl hn).eq_of_length hc.symm).symm

theorem Reached.levels_eq {ps' : List Piece} {s' : Stage} (h : Reached line text ps s) (h' : Reached line text ps' s')
    (ho : s'.out = s.out) : s'.indenter.levels = s.indenter.levels := by
  rcases List.prefix_or_prefix_of_prefix h.pieces h'.pieces with hp | hp
  · exact h.levels_behind h' hp ho
  · exact (h'.levels_behind h hp ho.symm).symm

end

/-! ## Tokens that begin a line -/

/-- The stages before and behind the piece that a token is made of, where some tokens are given out before it. -/
structure Gives (line : Nat) (text : List Char) (pre : List Token) (t : Token) (ps : List Piece) (p : Piece)
    (s s' : Stage) : Prop where
  before : Reached line text ps s
  behind : Reached line text (ps ++ [p]) s'
  made : s.Makes p t
  parens : openParens s.out = openParens pre
  out : s'.out = pre ++ [t]

/-- Some stage gives out the token. -/
def Given (line : Nat) (text : List Char) (pre : List Token) (t : Token) : Prop :=
  ∃ ps p s s', Gives line text pre t ps p s s'

/-- Before a token begins a line no parenthesis is open, and only blanks stand before it on its line. -/
structure LineStart (text : List Char) (pre : List Token) (t : Token) : Prop where
  real : t.kind.isReal
  flat : openParens pre = 0
  blanks : Blanks (lineBefore text t.pos)

section

variable {line : Nat} {text : List Char} {ps : List Piece} {p : Piece} {s s' : Stage}

theorem given_last (h : Reached line text ps s) (h' : Reached line text (ps ++ [p]) s') {t : Token} (hm : s.Makes p t)
    (new : List Token) (hn : ∀ u ∈ new, u.kind.isReal = false) (ho : s'.out = s.out ++ (new ++ [t]))
    (hg : Placed (·.isReal) (fun pre t _ => Given line text pre t) s.out) :
    Placed (·.isReal) (fun pre t _ => Given line text pre t) s'.out := by
  rw [ho]
  refine hg.append_last (fun _ _ _ _ h => h) new (fun u hu => by simp [hn u hu]) fun _ => ?_
  refine ⟨ps, p, s, s', h, h', hm, ?_, ?_⟩
  · rw [openParens_append, openParens_layout hn, Int.add_zero]
  · rw [ho, List.append_assoc]

/-- Every token that is written in a text is given out by a stage. -/
theorem gives_tokens (mark : Bool) :
    Placed (·.isReal) (fun pre t _ => Given line text pre t) (tokens line mark text) := by
  refine placed_tokens (K := (·.isReal)) nofun nofun (fun _ _ _ _ h => h) ?_ mark
  intro ps p s s' h h' hn hg
  cases hn with
  | skipped | blank | dropped => exact hg
  | lineEnd _ hk => exact hg.append_others (fun _ _ _ _ h => h) (List.forall_mem_singleton.2 (by rw [hk]; nofun))
  | opens hm => exact given_last h h' hm [_] (List.forall_mem_singleton.2 rfl) rfl hg
  | stays hm => exact given_last h h' hm [] nofun rfl hg
  | closes hm => exact given_last h h' hm _ (fun u hu => by rw [Indenter.kind_dedents hu]; rfl) rfl hg

/-- No comment comes right before a token, since behind a comment its line ends. -/
theorem Gives.not_comment {pre : List Token} {t : Token} (h : Gives line text pre t ps p s s') (hk : t.kind.isReal) :
    ∀ q ∈ ps.getLast?, q.kind ≠ .comment := by
  intro q hq hc
  have hs := h.made.of_real hk
  rw [lineEnds_next h.behind.pieces hq hc] at hs
  cases hs

/-- Behind a token that begins a line, the innermost level is that of the line. -/
theorem Gives.level {pre : List Token} {t : Token} (h : Gives line text pre t ps p s s') (hl : LineStart text pre t) :
    s'.indenter.level = (lineBefore text t.pos).length := by
  have hi := h.before.inLine
  have hb := hl.blanks
  rw [(Scanner.token?_some h.made).2.2, h.before.lineBefore_pos] at hb ⊢
  -- Something other than blanks would have been seen before the token.
  have ho : s.tracker.opening = true := by
    cases ho : s.tracker.opening with
    | true => rfl
    | false => exact absurd hb (hi.written ho (hi.parens.trans (h.parens.trans hl.flat)))
  rw [← (hi.leading ho (h.not_comment hl.real)).2]
  exact (Stage.next_of_ok (h.before.next_ok h.behind)).level_depth h.made hl.real h.before.nested.stacked ho

/-- Two lines that begin in the same block, or in one block and in a block inside it. -/
theorem Gives.aligned {pre mid : List Token} {t u : Token} (h : Gives line text pre t ps p s s')
    {qs : List Piece} {q : Piece} {r r' : Stage} (h' : Gives line text (pre ++ t :: mid) u qs q r r')
    (hl : LineStart text pre t) (hl' : LineStart text (pre ++ t :: mid) u) (hm : Opened mid) :
    (amount .dedent mid = amount .indent mid →
        (lineBefore text t.pos).length = (lineBefore text u.pos).length) ∧
      (amount .dedent mid < amount .indent mid →
        (lineBefore text t.pos).length < (lineBefore text u.pos).length) := by
  have ho : r'.out = s'.out ++ (mid ++ [u]) := by
    rw [h.out, h'.out]
    simp
  have hp : ps ++ [p] <+: qs ++ [q] := by
    rcases List.prefix_or_prefix_of_prefix h.behind.pieces h'.behind.pieces with hp | hp
    · exact hp
    · have hn := (h'.behind.out_mono h.behind hp).length_le
      rw [ho, List.length_append, List.length_append, List.length_singleton] at hn
      omega
  obtain ⟨more, hmore⟩ := hp
  have hr := h'.behind
  rw [← hmore] at hr
  obtain ⟨seg, hseg, hc, hs⟩ := Stage.run_levels (h.behind.run_on hr)
  cases List.append_cancel_left (ho.symm.trans hseg)
  rw [amount_append, amount_append, amount_real rfl hl'.real, amount_real rfl hl'.real] at hc
  obtain ⟨top, hlev⟩ := hs (hm.append (by rw [amount_real rfl hl'.real]; exact hm mid (List.prefix_refl _)))
  have hn := congrArg List.length hlev
  rw [List.length_append] at hn
  rw [← h.level hl, ← h'.level hl', Indenter.level, Indenter.level, ← hlev]
  cases top with
  | nil =>
    rw [List.length_nil] at hn
    exact ⟨fun _ => rfl, fun _ => by omega⟩
  | cons d top =>
    rw [List.length_cons] at hn
    refine ⟨fun _ => by omega, fun _ => ?_⟩
    have hf := hr.nested.stacked.falling
    obtain ⟨low, rest, he⟩ := List.exists_cons_of_ne_nil h.behind.nested.stacked.ne_nil
    rw [← hlev, he] at hf
    rw [he]
    exact List.rel_of_pairwise_cons hf (by simp)

end

/-! ## The tokens of a text -/

/-- What the blocks of a text look like in its tokens, and where the lines of the text stand in them. -/
structure BlockStructure (line : Nat) (text : List Char) (out : List Token) (fault : Option ReadFault) : Prop where
  opened : Opened out
  closed : fault = none → amount .dedent out = amount .indent out
  /-- The stages of the text give out its tokens. -/
  given : ∀ ps s, Reached line text ps s → s.out <+: out
  /-- A token opens a block, or is a fault, where it comes behind a line that asks for one. -/
  due : ∀ ps p s t, Reached line text ps s → ps ++ [p] <+: (Piece.cut text).1 → s.Makes p t → t.kind.isReal →
    t.kind.asksBlock = false → EndsAsking s.out →
      (∃ rest, out = s.out ++ .ofLayout .indent t.line :: t :: rest) ∨ (out = s.out ∧ fault = some .blockExpected)
  /-- And only there. -/
  placed : Stage.OpensPlaced out
  levels : ∀ ps s, Reached line text ps s → Indenter.Stacked s.indenter.levels
  /-- Behind a token that begins a line, the innermost level is the indentation of the line. -/
  level : ∀ pre t post, out = pre ++ t :: post → LineStart text pre t →
    (∃ ps s, Reached line text ps s ∧ s.out = pre ++ [t]) ∧
      ∀ ps s, Reached line text ps s → s.out = pre ++ [t] → s.indenter.level = (lineBefore text t.pos).length
  /-- Two lines that begin in one block are indented alike, and a line in a block inside it is indented deeper. -/
  aligned : ∀ pre t mid u post, out = pre ++ t :: (mid ++ u :: post) → LineStart text pre t →
    LineStart text (pre ++ t :: mid) u → Opened mid →
      (amount .dedent mid = amount .indent mid →
        (lineBefore text t.pos).length = (lineBefore text u.pos).length) ∧
      (amount .dedent mid < amount .indent mid →
        (lineBefore text t.pos).length < (lineBefore text u.pos).length)

/-- The blocks in the tokens of a text are well formed, and the lines of the text lie in them as they are indented. -/
theorem blockStructure_tokens (line : Nat) (mark : Bool) (text : List Char) :
    BlockStructure line text (tokens line mark text) (tokenize line mark text).fault where
  opened := (opened_tokens line mark text).1
  closed := (opened_tokens line mark text).2
  given _ _ hs := hs.out_tokens mark
  due _ _ _ _ hs hp hm hk ha he := hs.due mark hp hm hk ha he
  placed := opensPlaced_tokens line mark text
  levels _ _ hs := hs.nested.stacked
  level pre t post ht hl := by
    obtain ⟨_, _, _, s', hg⟩ := gives_tokens mark pre t post ht hl.real
    refine ⟨⟨_, s', hg.behind, hg.out⟩, fun ps s hs ho => ?_⟩
    rw [← hg.level hl, Indenter.level, Indenter.level, hg.behind.levels_eq hs (ho.trans hg.out.symm)]
  aligned pre t mid u post ht hl hl' hm := by
    obtain ⟨_, _, _, _, hg⟩ := gives_tokens mark pre t _ ht hl.real
    obtain ⟨_, _, _, _, hg'⟩ := gives_tokens mark (pre ++ t :: mid) u post (by rw [ht]; simp) hl'.real
    exact hg.aligned hg' hl hl' hm

end Pseudocode
