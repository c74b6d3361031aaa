import Pseudocode.Proofs.Layout

/-!
# Blocks in the tokens of a text

An indent opens a block and a dedent closes one. Each step of a lexer keeps the open blocks, opens one or closes some
(`Stage.Next.shift`), and from that follows what holds all along: the levels of the open blocks fall to zero, and
there are as many of them as the tokens given out have left open (`Stage.Nested`). So no block is closed that was
not opened, and at the end of a text without a fault all of them are closed (`opened_tokens`).

A block opens where a `then` or an `else` ends its line and the next token is neither of the two, and nowhere else:
`Reached.due`, `opensPlaced_tokens`.
-/

namespace Pseudocode

/-! ## Counting -/

/-- How many tokens are of a kind. -/
def amount (k : TokenKind) (ts : List Token) : Nat :=
  ts.countP (·.kind = k)

theorem amount_append (k : TokenKind) (ts us : List Token) : amount k (ts ++ us) = amount k ts + amount k us :=
  List.countP_append

theorem amount_others {k : TokenKind} {ts : List Token} (h : ∀ t ∈ ts, t.kind ≠ k) : amount k ts = 0 := by
  rw [amount, List.countP_eq_zero]
  intro t ht
  simpa using h t ht

theorem amount_single (k : TokenKind) (t : Token) : amount k [t] = if t.kind = k then 1 else 0 := by
  simp [amount, List.countP_cons]

theorem amount_real {k : TokenKind} (hk : k.isReal = false) {t : Token} (ht : t.kind.isReal) : amount k [t] = 0 := by
  rw [amount_single, if_neg (TokenKind.isReal_ne ht hk)]

theorem amount_dedents (n line : Nat) : amount .dedent (Indenter.dedents n line) = n := by
  rw [amount, Indenter.dedents, List.countP_replicate]
  rfl

theorem amount_indent_dedents (n line : Nat) : amount .indent (Indenter.dedents n line) = 0 :=
  amount_others fun t ht => by rw [Indenter.kind_dedents ht]; nofun

/-- Nowhere are more blocks closed than were opened before. -/
def Opened (ts : List Token) : Prop :=
  ∀ pre, pre <+: ts → amount .dedent pre ≤ amount .indent pre

theorem Opened.of_prefix {ts us : List Token} (h : Opened us) (hp : ts <+: us) : Opened ts :=
  fun pre hpre => h pre (hpre.trans hp)

theorem Opened.append {out new : List Token} (h : Opened out)
    (hc : amount .dedent out + amount .dedent new ≤ amount .indent out) : Opened (out ++ new) := by
  intro pre hp
  rcases Nat.le_total pre.length out.length with hl | hl
  · exact h pre (List.prefix_of_prefix_length_le hp (List.prefix_append _ _) hl)
  · obtain ⟨mid, rfl⟩ := List.prefix_of_prefix_length_le (List.prefix_append _ _) hp hl
    have hm : amount .dedent mid ≤ amount .dedent new :=
      List.Sublist.countP_le ((List.prefix_append_right_inj out).1 hp).sublist
    simp only [amount_append]
    omega

/-! ## Levels -/

namespace Indenter

/-- Levels from the innermost one down to that of the whole text. -/
structure Stacked (levels : List Nat) : Prop where
  falling : levels.Pairwise (· > ·)
  base : levels.getLast? = some 0

theorem Stacked.start : Stacked Indenter.start.levels :=
  ⟨List.pairwise_singleton _ _, rfl⟩

theorem Stacked.ne_nil {levels : List Nat} (h : Stacked levels) : levels ≠ [] := by
  rintro rfl
  cases h.base

theorem Stacked.push {levels : List Nat} (h : Stacked levels) {depth : Nat} (hd : levels.headD 0 < depth) :
    Stacked (depth :: levels) := by
  obtain ⟨top, rest, rfl⟩ := List.exists_cons_of_ne_nil h.ne_nil
  refine ⟨List.pairwise_cons.2 ⟨?_, h.falling⟩, ?_⟩
  · intro l hl
    rcases List.mem_cons.1 hl with rfl | hl
    · exact hd
    · exact Nat.lt_trans (List.rel_of_pairwise_cons h.falling hl) hd
  · rw [List.getLast?_cons_cons]
    exact h.base

/-- Closing the deeper levels brings up the level of the line. -/
theorem dropWhile_deeper {levels : List Nat} (h : levels.Pairwise (· > ·)) {depth : Nat} (hd : depth ∈ levels) :
    ∃ rest, levels.dropWhile (depth < ·) = depth :: rest := by
  induction levels with
  | nil => cases hd
  | cons top rest ih =>
    by_cases ht : depth < top
    · rw [List.dropWhile_cons_of_pos (by simpa using ht)]
      exact ih h.of_cons ((List.mem_cons.1 hd).resolve_left (Nat.ne_of_lt ht))
    · rw [List.dropWhile_cons_of_neg (by simpa using ht)]
      rcases List.mem_cons.1 hd with rfl | hd
      · exact ⟨rest, rfl⟩
      · exact absurd (List.rel_of_pairwise_cons h hd) ht

theorem Stacked.pop {levels : List Nat} (h : Stacked levels) {depth : Nat} (hd : depth ∈ levels) :
    Stacked (levels.dropWhile (depth < ·)) := by
  refine ⟨h.falling.sublist (List.dropWhile_sublist _), ?_⟩
  obtain ⟨rest, hr⟩ := dropWhile_deeper h.falling hd
  have hb := h.base
  rw [← List.takeWhile_append_dropWhile (p := (depth < ·)) (l := levels), hr] at hb
  rw [hr]
  simpa using hb

end Indenter

namespace Stage

/-! ## What a step does to the open blocks -/

/-- What giving out tokens does to the open blocks. -/
inductive Shift (s s' : Stage) (new : List Token) : Prop
  | keeps (hi : amount .indent new = 0) (hd : amount .dedent new = 0)
      (hl : s'.indenter.levels = s.indenter.levels)
  | opens (hi : amount .indent new = 1) (hd : amount .dedent new = 0) (depth : Nat) (hlt : s.indenter.level < depth)
      (hl : s'.indenter.levels = depth :: s.indenter.levels)
  | closes (hi : amount .indent new = 0) (depth : Nat) (hm : depth ∈ s.indenter.levels)
      (hd : amount .dedent new + s'.indenter.levels.length = s.indenter.levels.length)
      (hl : s'.indenter.levels = s.indenter.levels.dropWhile (depth < ·))

theorem Next.shift {s s' : Stage} {p : Piece} (hn : Next s p s') :
    ∃ new, s'.out = s.out ++ new ∧ Shift s s' new := by
  cases hn with
  | skipped | blank | dropped => exact ⟨[], (List.append_nil _).symm, .keeps rfl rfl rfl⟩
  | lineEnd _ hk =>
    exact ⟨_, rfl, .keeps (by rw [amount_single, hk]; rfl) (by rw [amount_single, hk]; rfl) rfl⟩
  | @opens t _ hk _ _ hd =>
    refine ⟨_, rfl, .opens ?_ ?_ _ hd rfl⟩
    · rw [← List.singleton_append, amount_append, amount_real rfl hk]
      rfl
    · rw [← List.singleton_append, amount_append, amount_real rfl hk]
      rfl
  | stays _ hk =>
    exact ⟨_, rfl, .keeps (amount_real rfl hk) (amount_real rfl hk) rfl⟩
  | @closes t _ hk _ hd =>
    refine ⟨_, rfl, .closes ?_ _ hd ?_ rfl⟩
    · rw [amount_append, amount_indent_dedents, amount_real rfl hk]
    · rw [amount_append, amount_dedents, amount_real rfl hk, Nat.add_zero,
        ← List.length_append, List.takeWhile_append_dropWhile]

/-- What the open blocks have to do with the tokens given out. -/
structure Nested (s : Stage) : Prop where
  stacked : Indenter.Stacked s.indenter.levels
  count : s.indenter.levels.length + amount .dedent s.out = 1 + amount .indent s.out
  opened : Opened s.out

theorem Nested.next {s s' : Stage} {p : Piece} (h : Nested s) (hn : Next s p s') : Nested s' := by
  obtain ⟨new, ho, hs⟩ := hn.shift
  have hc := h.count
  have hlen := List.length_pos_iff.2 h.stacked.ne_nil
  cases hs with
  | keeps hi hd hl =>
    refine ⟨hl ▸ h.stacked, ?_, ?_⟩
    · rw [ho, hl, amount_append, amount_append, hi, hd]
      exact hc
    · rw [ho]
      exact h.opened.append (by omega)
  | opens hi hd depth hlt hl =>
    refine ⟨hl ▸ h.stacked.push hlt, ?_, ?_⟩
    · rw [ho, hl, amount_append, amount_append, hi, hd, List.length_cons]
      omega
    · rw [ho]
      exact h.opened.append (by omega)
  | closes hi depth hm hd hl =>
    have hs' : Indenter.Stacked s'.indenter.levels := hl ▸ h.stacked.pop hm
    have hlen' := List.length_pos_iff.2 hs'.ne_nil
    refine ⟨hs', ?_, ?_⟩
    · rw [ho, amount_append, amount_append, hi]
      omega
    · rw [ho]
      exact h.opened.append (by omega)

theorem Nested.start (line : Nat) : Nested (.start line) :=
  ⟨Indenter.Stacked.start, rfl, fun pre hp => by rw [List.prefix_nil.1 hp]; exact Nat.le_refl 0⟩

/-- Behind tokens that close no more than they open, the blocks that were open still are. -/
theorem run_levels {s s' : Stage} {ps : List Piece} (h : s.run ps = .ok s') :
    ∃ seg, s'.out = s.out ++ seg ∧
      s'.indenter.levels.length + amount .dedent seg = s.indenter.levels.length + amount .indent seg ∧
      (Opened seg → s.indenter.levels <:+ s'.indenter.levels) := by
  refine @run_keeps (fun _ s' => ∃ seg, s'.out = s.out ++ seg ∧
      s'.indenter.levels.length + amount .dedent seg = s.indenter.levels.length + amount .indent seg ∧
      (Opened seg → s.indenter.levels <:+ s'.indenter.levels)) ps ?_ s s' [] ps (List.prefix_refl _) h
    ⟨[], (List.append_nil _).symm, rfl, fun _ => List.suffix_refl _⟩
  rintro _ p s₁ s₂ _ ⟨seg, ho, hc, hs⟩ hn
  obtain ⟨new, ho', hs'⟩ := (next_of_ok hn).shift
  refine ⟨seg ++ new, by rw [ho', ho, List.append_assoc], ?_⟩
  rw [amount_append, amount_append]
  cases hs' with
  | keeps hi hd hl =>
    rw [hi, hd, hl]
    exact ⟨hc, fun h => hs (h.of_prefix (List.prefix_append _ _))⟩
  | opens hi hd depth _ hl =>
    rw [hi, hd, hl, List.length_cons]
    exact ⟨by omega, fun h => (hs (h.of_prefix (List.prefix_append _ _))).trans (List.suffix_cons _ _)⟩
  | closes hi depth _ hd hl =>
    rw [hi]
    refine ⟨by omega, fun h => ?_⟩
    have hall := h _ (List.prefix_refl _)
    rw [amount_append, amount_append, hi] at hall
    refine List.suffix_of_suffix_length_le (hs (h.of_prefix (List.prefix_append _ _))) ?_ (by omega)
    rw [hl]
    exact List.dropWhile_suffix _

/-! ## Where a block opens -/

/-- A line that asks for a block comes before, and behind comes a token that asks for none. -/
def OpensBetween (pre post : List Token) : Prop :=
  EndsAsking pre ∧ ∃ t rest, post = t :: rest ∧ t.kind.isReal ∧ t.kind.asksBlock = false

theorem OpensBetween.more {pre post : List Token} (h : OpensBetween pre post) (more : List Token) :
    OpensBetween pre (post ++ more) := by
  obtain ⟨ha, t, rest, rfl, ht⟩ := h
  exact ⟨ha, t, rest ++ more, rfl, ht⟩

/-- A block opens only behind a line that asks for one, and only with a token that asks for none. -/
def OpensPlaced : List Token → Prop :=
  Placed (· = .indent) fun pre _ post => OpensBetween pre post

theorem Next.opensPlaced {s s' : Stage} {p : Piece} (hn : Next s p s') (ht : s.Tracks) (h : OpensPlaced s.out) :
    OpensPlaced s'.out := by
  have hm : ∀ (pre : List Token) (_ : Token) (post more : List Token),
      OpensBetween pre post → OpensBetween pre (post ++ more) := fun _ _ _ more h => h.more more
  cases hn with
  | skipped | blank | dropped => exact h
  | lineEnd _ hk =>
    refine Placed.append_others hm h (List.forall_mem_singleton.2 ?_)
    rw [hk]
    nofun
  | @opens t _ hk ha hw =>
    refine Placed.append hm h fun pre u post he hu => ?_
    cases pre with
    | nil =>
      cases he
      rw [List.append_nil]
      exact ⟨ht.wait_iff.1 hw, t, [], rfl, hk, ha⟩
    | cons i pre =>
      cases pre with
      | nil =>
        cases he
        exact absurd hu (TokenKind.isReal_ne hk rfl)
      | cons j pre => cases pre <;> cases he
  | stays _ hk => exact Placed.append_others hm h (List.forall_mem_singleton.2 (TokenKind.isReal_ne hk rfl))
  | closes _ hk =>
    refine Placed.append_last hm h _ (fun u hu => ?_) fun hi => absurd hi (TokenKind.isReal_ne hk rfl)
    rw [Indenter.kind_dedents hu]
    nofun

/-- A token that has to open a block does, or it is a fault. -/
theorem next_due {s : Stage} {p : Piece} {t : Token} (hm : Makes s p t) (hk : t.kind.isReal)
    (ha : t.kind.asksBlock = false) (hw : s.tracker.wait = .now) :
    (∃ s', s.next p = .ok s' ∧ s'.out = s.out ++ [.ofLayout .indent t.line, t]) ∨
      s.next p = .error .blockExpected := by
  have hl : (s.tracker.step t).1 = ⟨t, s.tracker.opening, true⟩ := by
    rw [LineTracker.step_real _ hk, ha, hw]
    rfl
  rw [next_eq hm, hl, Indenter.step_real _ hk]
  unfold Indenter.real
  rw [if_pos rfl]
  by_cases hd : s.indenter.level < s.indenter.depth
  · rw [if_pos hd]
    exact .inl ⟨_, rfl, rfl⟩
  · rw [if_neg hd]
    exact .inr rfl

end Stage

/-! ## The tokens of a text -/

theorem Reached.nested {line : Nat} {text : List Char} {ps : List Piece} {s : Stage}
    (h : Reached line text ps s) : s.Nested :=
  h.keeps (I := fun _ s => s.Nested) (Stage.Nested.start line) fun _ _ hs hn => hn.next hs

section

variable (line : Nat) (mark : Bool) (text : List Char)

theorem amount_final (m : Option Nat) :
    amount .dedent (if mark then [endMarker m] else []) = 0 ∧
      amount .indent (if mark then [endMarker m] else []) = 0 := by
  cases mark <;> exact ⟨rfl, rfl⟩

theorem opened_tokens :
    Opened (tokens line mark text) ∧ ((tokenize line mark text).fault = none →
      amount .dedent (tokens line mark text) = amount .indent (tokens line mark text)) := by
  obtain ⟨ps, s, hs, he⟩ := tokens_ends line mark text
  have hn := hs.nested
  have hlen := List.length_pos_iff.2 hn.stacked.ne_nil
  have hc := hn.count
  rcases he with ⟨hf, he⟩ | ⟨-, n, m, he⟩
  · rw [he]
    exact ⟨hn.opened, fun h => absurd h hf⟩
  · -- At the end, all blocks but the outermost are closed.
    have hd : amount .dedent (Indenter.dedents (s.indenter.levels.length - 1) n ++
        if mark then [endMarker m] else []) = s.indenter.levels.length - 1 := by
      rw [amount_append, amount_dedents, (amount_final mark m).1, Nat.add_zero]
    rw [he, List.append_assoc]
    refine ⟨hn.opened.append (by omega), fun _ => ?_⟩
    rw [amount_append .dedent, hd, amount_append, amount_append, amount_indent_dedents, (amount_final mark m).2]
    omega

theorem opensPlaced_tokens : Stage.OpensPlaced (tokens line mark text) :=
  placed_tokens (K := (· = .indent)) nofun nofun (fun _ _ _ more h => h.more more)
    (fun h _ hn => hn.opensPlaced h.tracks) mark

variable {line text} {ps : List Piece} {p : Piece} {s : Stage}

theorem Reached.due (h : Reached line text ps s) (hp : ps ++ [p] <+: (Piece.cut text).1) {t : Token}
    (hm : s.Makes p t) (hk : t.kind.isReal) (ha : t.kind.asksBlock = false) (he : EndsAsking s.out) :
    (∃ rest, tokens line mark text = s.out ++ .ofLayout .indent t.line :: t :: rest) ∨
      (tokens line mark text = s.out ∧ (tokenize line mark text).fault = some .blockExpected) := by
  rcases Stage.next_due hm hk ha (h.tracks.wait_iff.2 he) with ⟨s', hn, ho⟩ | hn
  · obtain ⟨rest, hr⟩ := (h.next hp hn).out_tokens mark
    refine .inl ⟨rest, ?_⟩
    rw [← hr, ho, List.append_assoc]
    rfl
  · exact .inr (h.fault hp hn mark)

end

end Pseudocode
