import Pseudocode.Proofs.ReaderSound
/-!
# The reader reads all that derives

A derivation can put a line end to any of several statements, and an `else` to any of several conditional
statements, while the reader puts both to the innermost one. It then has conditional statements open that the
derivation has closed. This does no harm: what is open can be closed later without a token, and what is closed
cannot be opened again.

`Covers L F` says that frames `F` have open what a derivation has open, which is `L`, and maybe more
conditional statements between. `Opened` and `Closed` say that a reader is at least as far as a derivation
behind a statement and behind its line end. Each move of a derivation keeps them, and so each rule lets the
reader go on (`good_rule`).
-/

namespace Pseudocode.Reader

open Grammar

theorem feedAll_cons {r r' : Reader} {t : Token} {ts : List Token} {x : Except ReadFault Reader}
    (h : r.feed t = some r') (hx : r'.feedAll ts = x) : r.feedAll (t :: ts) = x := by
  rw [feedAll, h]
  exact hx

theorem feedAll_cons_ok {r r₂ : Reader} {t : Token} {ts : List Token} (h : r.feedAll (t :: ts) = .ok r₂) :
    ∃ r₁, r.feed t = some r₁ ∧ r₁.feedAll ts = .ok r₂ := by
  rw [feedAll] at h
  split at h
  · cases h
  · exact ⟨_, ‹_›, h⟩

/-- What every token keeps holds behind all of them. -/
theorem feedAll_keeps {I : Reader → Prop} (hI : ∀ {r r' t}, I r → r.feed t = some r' → I r') {r r' : Reader}
    {ts : List Token} (hr : I r) (h : r.feedAll ts = .ok r') : I r' := by
  induction ts generalizing r with
  | nil =>
    cases h
    exact hr
  | cons t ts ih =>
    obtain ⟨r₁, h₁, h₂⟩ := feedAll_cons_ok h
    exact ih (hI hr h₁) h₂

theorem feedAll_append {r r' : Reader} {us ts : List Token} {x : Except ReadFault Reader}
    (h : r.feedAll us = .ok r') (hx : r'.feedAll ts = x) : r.feedAll (us ++ ts) = x := by
  induction us generalizing r with
  | nil => cases h; exact hx
  | cons t us ih =>
    obtain ⟨r₁, h₁, h₂⟩ := feedAll_cons_ok h
    exact feedAll_cons h₁ (ih h₂)

theorem feedAll_split {r r₂ : Reader} {us ts : List Token} (h : r.feedAll (us ++ ts) = .ok r₂) :
    ∃ r₁, r.feedAll us = .ok r₁ ∧ r₁.feedAll ts = .ok r₂ := by
  induction us generalizing r with
  | nil => exact ⟨r, rfl, h⟩
  | cons t us ih =>
    obtain ⟨r', hf, h⟩ := feedAll_cons_ok h
    obtain ⟨r₁, h₁, h₂⟩ := ih h
    exact ⟨r₁, feedAll_cons hf h₁, h₂⟩

theorem feedAll_snoc {r r₂ : Reader} {us : List Token} {t : Token} (h : r.feedAll (us ++ [t]) = .ok r₂) :
    ∃ r₁, r.feedAll us = .ok r₁ ∧ r₁.feed t = some r₂ := by
  obtain ⟨r₁, h₁, h₂⟩ := feedAll_split h
  obtain ⟨r', hf, h'⟩ := feedAll_cons_ok h₂
  cases h'
  exact ⟨r₁, h₁, hf⟩

/-! ## Expressions -/

/-- No operator waits on top of some frames. -/
def Settled : List Frame → Prop
  | .negated :: _ => False
  | .left _ _ _ :: _ => False
  | _ => True

/-- Operators that wait on top of some frames. -/
inductive Pending (base : List Frame) : List Frame → Prop
  | base : Pending base base
  | negated {F} (h : Pending base F) : Pending base (.negated :: F)
  | left {F op l a} (hl : 0 < l) (h : Pending base F) : Pending base (.left op l a :: F)

/-- Whether the operators in wait make up a comparison, or `c` if there are none. -/
def compared : Bool → List Frame → Bool
  | _, .negated :: F => compared false F
  | _, .left _ l _ :: F => compared (l == 1) F
  | c, _ => c

theorem compared_settled {F : List Frame} (h : Settled F) (c : Bool) : compared c F = c := by
  unfold compared
  split <;> first | rfl | exact absurd h id

theorem settle_settled {F : List Frame} (h : Settled F) (level : Nat) (e : Tree) (c : Bool) :
    settle level e c F = (e, c, F) := by
  unfold settle
  split <;> first | rfl | exact absurd h id

theorem settle_zero {base F : List Frame} (hb : Settled base) (h : Pending base F) (e : Tree) (c : Bool) :
    ∃ e', settle 0 e c F = (e', compared c F, base) := by
  induction h generalizing e c with
  | base => exact ⟨e, by rw [settle_settled hb, compared_settled hb]⟩
  | negated _ ih => simpa [settle, compared] using ih (negate e) false
  | @left F op l a hl _ ih => simpa [settle, compared] using ih (combine op l a e) (l == 1)

/-- Settling for an operator leaves a comparison in wait, unless the operator makes a new one. -/
theorem settle_pending {base F : List Frame} (hb : Settled base) (h : Pending base F) {level : Nat}
    (hl : 0 < level) (e : Tree) (c : Bool) :
    Pending base (settle level e c F).2.2 ∧ (level = 1 → (settle level e c F).2.2 = base) ∧
      (level ≠ 1 → compared false F = true → compared false (settle level e c F).2.2 = true) := by
  induction h generalizing e c with
  | base => rw [settle_settled hb]; exact ⟨.base, fun _ => rfl, fun _ h => h⟩
  | @negated F h ih =>
    rw [settle]
    split
    · exact ih (negate e) false
    · exact ⟨.negated h, by omega, fun _ h => h⟩
  | @left F op l a hl' h ih =>
    rw [settle]
    split
    · rename_i hle
      -- What is settled here binds at least as closely as the operator, so it is no comparison if that is none.
      obtain ⟨h1, h2, h3⟩ := ih (combine op l a e) (l == 1)
      refine ⟨h1, h2, fun hne hc => h3 hne ?_⟩
      rwa [compared, show (l == 1) = false by simp; omega] at hc
    · exact ⟨.left hl' h, by omega, fun _ h => h⟩

theorem feed_operator {base F : List Frame} (hb : Settled base) (h : Pending base F) {t : Token} {l : Nat}
    (ht : t.kind.level? = some l) (e : Tree) :
    ∃ F', Reader.feed ⟨.operator e false, F⟩ t = some ⟨.operand, F'⟩ ∧ Pending base F' ∧
      (compared false F = true ∨ l = 1 → compared false F' = true) := by
  have hl : 0 < l := by rcases level_cases ht with h | h | h | h | h <;> omega
  obtain ⟨h1, h2, h3⟩ := settle_pending hb h hl e false
  refine ⟨.left t.payload.string l (settle l e false F).1 :: (settle l e false F).2.2, ?_, .left hl h1, ?_⟩
  · simp only [Reader.feed, operator, ht]
  · intro hc
    rw [compared]
    by_cases h1 : l = 1
    · rw [h2 h1, compared_settled hb]
      simpa using h1
    · rw [show (l == 1) = false by simpa using h1]
      exact h3 h1 (hc.resolve_right h1)

/-- The reader takes an operand as it does on top of some frames. -/
def TakesOperand (r : Reader) (F : List Frame) : Prop :=
  ∀ t r', operand t F = some r' → r.feed t = some r'

/-- From wherever an operand can be read the reader reads these tokens, up to behind an operand. They are to
be a comparison if `must` says so. -/
def ReadsOperand (must : Bool) (ts : List Token) : Prop :=
  ∀ r F base, TakesOperand r F → Settled base → Pending base F →
    ∃ e F', r.feedAll ts = .ok ⟨.operator e false, F'⟩ ∧ Pending base F' ∧
      (compared false F = true ∨ must = true → compared false F' = true)

theorem takesOperand (F : List Frame) : TakesOperand ⟨.operand, F⟩ F :=
  fun _ _ h => h

theorem readsOperand_token {t : Token} {e : Tree} (h : ∀ F, operand t F = some ⟨.operator e false, F⟩) :
    ReadsOperand false [t] := by
  intro r F base hr hb hF
  exact ⟨e, F, feedAll_cons (hr t _ (h F)) rfl, hF, by simp⟩

theorem readsOperand_negation {t : Token} {ts : List Token} (ht : t.kind = .minus) (h : ReadsOperand false ts) :
    ReadsOperand false (t :: ts) := by
  intro r F base hr hb hF
  have h0 : r.feed t = some ⟨.operand, .negated :: F⟩ := hr t _ (by simp [operand, ht])
  obtain ⟨e, F', h1, h2, h3⟩ := h _ _ base (takesOperand _) hb (.negated hF)
  exact ⟨e, F', feedAll_cons h0 h1, h2, h3⟩

theorem readsOperand_group {p q : Token} {ts : List Token} (hp : p.kind = .leftParen) (hq : q.kind = .rightParen)
    (h : ReadsOperand false ts) : ReadsOperand false (p :: (ts ++ [q])) := by
  intro r F base hr hb hF
  have h0 : r.feed p = some ⟨.operand, .paren :: F⟩ := hr p _ (by simp [operand, hp])
  have hs : Settled (.paren :: F) := trivial
  obtain ⟨e, F', h1, h2, -⟩ := h _ _ _ (takesOperand _) hs .base
  obtain ⟨e', he⟩ := settle_zero hs h2 e false
  have h3 : Reader.feed ⟨.operator e false, F'⟩ q = some ⟨.operator e' false, F⟩ := by
    simp [Reader.feed, operator, TokenKind.level?, hq, he, conclude]
  exact ⟨e', F, feedAll_cons h0 (feedAll_append h1 (feedAll_cons h3 rfl)), hF, by simp⟩

theorem readsOperand_binary {t : Token} {l : Nat} {xs ys : List Token} (ht : t.kind.level? = some l)
    (hx : ReadsOperand false xs) (hy : ReadsOperand false ys) : ReadsOperand (l == 1) (xs ++ t :: ys) := by
  intro r F base hr hb hF
  obtain ⟨a, F1, h1, hF1, hc1⟩ := hx r F base hr hb hF
  obtain ⟨F2, h2, hF2, hc2⟩ := feed_operator hb hF1 ht a
  obtain ⟨b, F3, h3, hF3, hc3⟩ := hy _ F2 base (takesOperand _) hb hF2
  refine ⟨b, F3, feedAll_append h1 (feedAll_cons h2 h3), hF3, fun hc => hc3 (.inl (hc2 ?_))⟩
  rcases hc with hc | hc
  · exact .inl (hc1 (.inl hc))
  · exact .inr (by simpa using hc)

theorem ReadsOperand.weaken {must : Bool} {ts : List Token} (h : ReadsOperand must ts) : ReadsOperand false ts := by
  intro r F base hr hb hF
  obtain ⟨e, F', h1, h2, h3⟩ := h r F base hr hb hF
  exact ⟨e, F', h1, h2, fun hc => h3 (.inl (by simpa using hc))⟩

/-! ## Open statements -/

/-- What a derivation has open, apart from the program itself. -/
inductive Layer where
  | thenPart
  | elsePart
  | block
deriving DecidableEq

/-- Frames have open what a derivation has open, and maybe more conditional statements. -/
inductive Covers : List Layer → List Frame → Prop
  | program {done} : Covers [] [.program done]
  | thenPart {L F test} (h : Covers L F) : Covers (.thenPart :: L) (.thenPart test :: F)
  | elsePart {L F test body} (h : Covers L F) : Covers (.elsePart :: L) (.elsePart test body :: F)
  | block {L F done} (h : Covers L F) : Covers (.block :: L) (.block done :: F)
  | moreThen {L F test} (h : Covers L F) : Covers L (.thenPart test :: F)
  | moreElse {L F test body} (h : Covers L F) : Covers L (.elsePart test body :: F)

theorem Covers.more {L : List Layer} {f : Frame} {F : List Frame} (hf : IsConditional f) (h : Covers L F) :
    Covers L (f :: F) := by
  cases f with
  | thenPart => exact .moreThen h
  | elsePart => exact .moreElse h
  | _ => exact absurd hf id

/-- A conditional statement that the derivation has closed is one more. -/
theorem Covers.tail {c : Layer} {L : List Layer} {F : List Frame} (hc : c ≠ .block) (h : Covers (c :: L) F) :
    Covers L F := by
  -- Frames that are one more can lie on top of the frame for `c`.
  generalize hL : c :: L = L' at h
  induction h with
  | program => cases hL
  | thenPart h => cases hL; exact .moreThen h
  | elsePart h => cases hL; exact .moreElse h
  | block => cases hL; exact absurd rfl hc
  | moreThen _ ih => exact .moreThen (ih hL)
  | moreElse _ ih => exact .moreElse (ih hL)

/-- The tokens that can follow a complete statement. -/
def follows : TokenKind → Bool
  | .newline | .elseWord | .dedent | .endMarker => true
  | .letWord | .ifWord | .returnWord | .printWord | .gotoWord | .marker => true
  | _ => false

theorem level?_of_follows {k : TokenKind} (h : follows k = true) : k.level? = none := by
  cases k <;> first | rfl | cases h

theorem operand_of_follows {t : Token} (h : follows t.kind = true) (F : List Frame) : operand t F = none := by
  unfold operand
  split <;> first | rfl | (rename_i hk; rw [hk] at h; cases h)

theorem place_covers {L : List Layer} {F : List Frame} (h : Covers L F) (s : Tree) :
    ∃ r, place s F = some r := by
  cases h <;> exact ⟨_, rfl⟩

/-- A statement is complete on top of some frames. -/
def Completes (r : Reader) (F : List Frame) : Prop :=
  ∃ s, ∀ t, follows t.kind = true → r.feed t = complete t s F

/-- A statement and its line are complete on top of some frames. -/
def Closes (r : Reader) (F : List Frame) : Prop :=
  ∃ s r', place s F = some r' ∧ ∀ t, follows t.kind = true → r.feed t = r'.feed t

/-- A token other than a line end closes statements on top of some frames. -/
def Unwinds (r : Reader) (F : List Frame) : Prop :=
  ∃ s, ∀ t, follows t.kind = true → t.kind ≠ .newline → r.feed t = unwind t s F

theorem Completes.unwinds {r : Reader} {F : List Frame} (h : Completes r F) : Unwinds r F := by
  obtain ⟨s, h⟩ := h
  refine ⟨s, ?_⟩
  intro t ht hn
  rw [h t ht, complete, if_neg hn]

theorem feed_place {s : Tree} {F : List Frame} {r : Reader} (h : place s F = some r) {t : Token}
    (ht : t.kind ≠ .newline) : r.feed t = unwind t s F := by
  unfold place at h
  split at h <;> cases h
  all_goals simp [Reader.feed, unwind, complete, ht]

theorem Closes.unwinds {r : Reader} {F : List Frame} (h : Closes r F) : Unwinds r F := by
  obtain ⟨s, r', hp, h⟩ := h
  refine ⟨s, ?_⟩
  intro t ht hn
  rw [h t ht, feed_place hp hn]

/-- The reader is at least as far as a derivation behind a statement. -/
def Opened (r : Reader) (L : List Layer) : Prop :=
  ∃ F, Covers L F ∧ (Completes r F ∨ ∃ f, IsConditional f ∧ Closes r (f :: F))

/-- The reader is at least as far as a derivation behind a statement and its line. -/
def Closed (r : Reader) (L : List Layer) : Prop :=
  ∃ F, Covers L F ∧ (Completes r F ∨ Closes r F)

/-- The reader is where a statement can begin. -/
def Begins (r : Reader) (L : List Layer) : Prop :=
  ∃ F, Covers L F ∧ ∀ t r', begin t F = some r' → r.feed t = some r'

theorem Opened.closed {r : Reader} {L : List Layer} (h : Opened r L) : Closed r L := by
  obtain ⟨F, hF, h | ⟨f, hf, h⟩⟩ := h
  · exact ⟨F, hF, .inl h⟩
  · exact ⟨f :: F, hF.more hf, .inr h⟩

theorem Closed.unwinds {r : Reader} {L : List Layer} (h : Closed r L) : ∃ F, Covers L F ∧ Unwinds r F := by
  obtain ⟨F, hF, h | h⟩ := h
  · exact ⟨F, hF, h.unwinds⟩
  · exact ⟨F, hF, h.unwinds⟩

/-- A conditional statement is complete behind its part. -/
theorem Closed.opened {r : Reader} {c : Layer} {L : List Layer} (hc : c ≠ .block) (h : Closed r (c :: L)) :
    Opened r L := by
  obtain ⟨F, hF, h | h⟩ := h
  · exact ⟨F, hF.tail hc, .inl h⟩
  · cases hF with
    | thenPart hF | elsePart hF => exact ⟨_, hF, .inr ⟨_, by trivial, h⟩⟩
    | moreThen hF | moreElse hF => exact ⟨_, hF.tail hc, .inr ⟨_, by trivial, h⟩⟩
    | block => exact absurd rfl hc

theorem feed_closes {f : Frame} {F : List Frame} {r : Reader} (hf : IsConditional f) (h : Closes r (f :: F))
    {t : Token} (ht : t.kind = .newline) : ∃ s, r.feed t = place s F := by
  obtain ⟨s, r', hp, h⟩ := h
  rw [h t (by rw [ht]; rfl)]
  cases f with
  | thenPart test => cases hp; exact ⟨.when test s, by simp [Reader.feed, complete, ht]⟩
  | elsePart test body => cases hp; exact ⟨.choose test body s, by simp [Reader.feed, complete, ht]⟩
  | _ => exact absurd hf id

theorem closes_of_place {s : Tree} {F : List Frame} {r : Reader} (h : place s F = some r) : Closes r F :=
  ⟨s, r, h, fun _ _ => rfl⟩

/-- The line end of a statement. -/
theorem Opened.newline {r : Reader} {L : List Layer} (h : Opened r L) {t : Token} (ht : t.kind = .newline) :
    ∃ r', r.feed t = some r' ∧ Closed r' L := by
  obtain ⟨F, hF, h⟩ := h
  have hs : ∃ s, r.feed t = place s F := by
    rcases h with ⟨s, h⟩ | ⟨f, hf, h⟩
    · exact ⟨s, by rw [h t (by rw [ht]; rfl), complete, if_pos ht]⟩
    · exact feed_closes hf h ht
  obtain ⟨s, hs⟩ := hs
  obtain ⟨r', hr⟩ := place_covers hF s
  exact ⟨r', hs.trans hr, F, hF, .inr (closes_of_place hr)⟩

/-! ## Tokens that close statements -/

theorem unwind_else {L : List Layer} {F : List Frame} (h : Covers (.thenPart :: L) F) {t : Token}
    (ht : t.kind = .elseWord) (s : Tree) :
    ∃ test body F', unwind t s F = some ⟨.body, .elsePart test body :: F'⟩ ∧ Covers L F' := by
  generalize hL : Layer.thenPart :: L = L' at h
  induction h generalizing s with
  | program => cases hL
  | @thenPart _ F test h => cases hL; exact ⟨test, s, F, by simp [unwind, ht], h⟩
  | elsePart => cases hL
  | block => cases hL
  -- The `else` goes to a statement that the derivation has closed. The one it belongs to becomes one more.
  | @moreThen _ F test h =>
    subst hL
    exact ⟨test, s, F, by simp [unwind, ht], h.tail (by decide)⟩
  | @moreElse _ F test body h ih => exact ih (.choose test body s) hL

theorem unwind_block {L : List Layer} {F : List Frame} (h : Covers (.block :: L) F) (s : Tree) :
    ∃ d done F', Covers L F' ∧
      ∀ t : Token, t.kind ≠ .elseWord → unwind t s F = atStatement t (.block (d :: done) :: F') := by
  generalize hL : Layer.block :: L = L' at h
  induction h generalizing s with
  | program => cases hL
  | thenPart => cases hL
  | elsePart => cases hL
  | @block _ F done h => cases hL; exact ⟨s, done, F, h, fun _ _ => rfl⟩
  | @moreThen _ F test h ih =>
    obtain ⟨d, done, F', hF, he⟩ := ih (.when test s) hL
    exact ⟨d, done, F', hF, fun t ht => by rw [unwind, if_neg ht, he t ht]⟩
  | @moreElse _ F test body h ih => exact ih (.choose test body s) hL

theorem unwind_program {F : List Frame} (h : Covers [] F) (s : Tree) :
    ∃ d done, ∀ t : Token, t.kind ≠ .elseWord → unwind t s F = atStatement t [.program (d :: done)] := by
  generalize hL : [] = L' at h
  induction h generalizing s with
  | @program done => exact ⟨s, done, fun _ _ => rfl⟩
  | thenPart => cases hL
  | elsePart => cases hL
  | block => cases hL
  | @moreThen _ F test h ih =>
    obtain ⟨d, done, he⟩ := ih (.when test s) hL
    exact ⟨d, done, fun t ht => by rw [unwind, if_neg ht, he t ht]⟩
  | @moreElse _ F test body h ih => exact ih (.choose test body s) hL

theorem Closed.feed_else {r : Reader} {L : List Layer} (h : Closed r (.thenPart :: L)) {t : Token}
    (ht : t.kind = .elseWord) :
    ∃ test body F, r.feed t = some ⟨.body, .elsePart test body :: F⟩ ∧ Covers L F := by
  obtain ⟨F, hF, s, h⟩ := h.unwinds
  rw [h t (by rw [ht]; rfl) (by rw [ht]; decide)]
  exact unwind_else hF ht s

/-- Behind a statement of a block every token that follows it, apart from line ends and `else`, is taken where
statements of the block begin. -/
theorem Closed.at_block {r : Reader} {L : List Layer} (h : Closed r (.block :: L)) :
    ∃ d done F, Covers L F ∧ ∀ t : Token, follows t.kind = true → t.kind ≠ .newline → t.kind ≠ .elseWord →
      r.feed t = atStatement t (.block (d :: done) :: F) := by
  obtain ⟨F, hF, s, h⟩ := h.unwinds
  obtain ⟨d, done, F', hF', he⟩ := unwind_block hF s
  exact ⟨d, done, F', hF', fun t h1 h2 h3 => by rw [h t h1 h2, he t h3]⟩

theorem Closed.at_program {r : Reader} (h : Closed r []) :
    ∃ d done, ∀ t : Token, follows t.kind = true → t.kind ≠ .newline → t.kind ≠ .elseWord →
      r.feed t = atStatement t [.program (d :: done)] := by
  obtain ⟨F, hF, s, h⟩ := h.unwinds
  obtain ⟨d, done, he⟩ := unwind_program hF s
  exact ⟨d, done, fun t h1 h2 h3 => by rw [h t h1 h2, he t h3]⟩

theorem Closed.feed_dedent {r : Reader} {L : List Layer} (h : Closed r (.block :: L)) {t : Token}
    (ht : t.kind = .dedent) : ∃ r', r.feed t = some r' ∧ Closed r' L := by
  obtain ⟨d, done, F, hF, h⟩ := h.at_block
  obtain ⟨r', hr⟩ := place_covers hF (blockTree (d :: done))
  refine ⟨r', ?_, F, hF, .inr (closes_of_place hr)⟩
  rw [h t (by rw [ht]; rfl) (by rw [ht]; decide) (by rw [ht]; decide), atStatement, if_pos ht, hr]

theorem Closed.feed_endMarker {r : Reader} (h : Closed r []) {t : Token} (ht : t.kind = .endMarker) :
    ∃ done, r.feed t = some ⟨.accepted, [.program done]⟩ := by
  obtain ⟨d, done, h⟩ := h.at_program
  refine ⟨d :: done, ?_⟩
  rw [h t (by rw [ht]; rfl) (by rw [ht]; decide) (by rw [ht]; decide)]
  simp [atStatement, ht]

/-- A line end more, behind the statements of the program. -/
theorem Closed.feed_newline {r : Reader} (h : Closed r []) {t : Token} (ht : t.kind = .newline) :
    ∃ r', r.feed t = some r' ∧ Closed r' [] := by
  obtain ⟨F, hF, h | h⟩ := h
  · exact Opened.newline ⟨F, hF, .inl h⟩ ht
  -- The program takes the line end for an item, unless a conditional statement is open that takes it first.
  · cases hF with
    | @program done =>
      obtain ⟨s, r', hp, h⟩ := h
      cases hp
      have hn : place t.payload.tree [.program (s :: done)] =
          some ⟨.statement, [.program (t.payload.tree :: s :: done)]⟩ := rfl
      refine ⟨_, ?_, _, .program, .inr (closes_of_place hn)⟩
      rw [h t (by rw [ht]; rfl)]
      simp [Reader.feed, atStatement, ht]
    | moreThen hF | moreElse hF => exact Opened.newline ⟨_, hF, .inr ⟨_, by trivial, h⟩⟩ ht

/-- The tokens that begin a statement. -/
theorem begin_kind {t : Token} {F : List Frame} {r : Reader} (h : begin t F = some r) :
    follows t.kind = true ∧ t.kind ≠ .newline ∧ t.kind ≠ .elseWord ∧ t.kind ≠ .dedent ∧ t.kind ≠ .endMarker := by
  unfold begin at h
  split at h
  case h_7 => cases h
  all_goals (rename_i hk; rw [hk]; decide)

theorem Closed.begins_block {r : Reader} {L : List Layer} (h : Closed r (.block :: L)) :
    Begins r (.block :: L) := by
  obtain ⟨d, done, F, hF, h⟩ := h.at_block
  refine ⟨.block (d :: done) :: F, hF.block, ?_⟩
  intro t r' hb
  obtain ⟨h1, h2, h3, h4, -⟩ := begin_kind hb
  rw [h t h1 h2 h3, atStatement, if_neg h4, hb]

theorem Closed.begins_program {r : Reader} (h : Closed r []) : Begins r [] := by
  obtain ⟨d, done, h⟩ := h.at_program
  refine ⟨[.program (d :: done)], .program, ?_⟩
  intro t r' hb
  obtain ⟨h1, h2, h3, -, h5⟩ := begin_kind hb
  rw [h t h1 h2 h3, atStatement]
  split
  · rename_i hk; exact absurd hk h2
  · rename_i hk; exact absurd hk h5
  · exact hb

theorem begins_body {L : List Layer} {F : List Frame} (h : Covers L F) : Begins ⟨.body, F⟩ L := by
  refine ⟨F, h, ?_⟩
  intro t r' hb
  simp [Reader.feed, (begin_kind hb).2.1, hb]

theorem begins_statement {L : List Layer} {F : List Frame} (h : Covers L F) :
    Begins ⟨.statement, .block [] :: F⟩ (.block :: L) :=
  ⟨_, h.block, fun _ _ hb => hb⟩

theorem begins_start : Begins start [] := by
  refine ⟨[.program []], .program, ?_⟩
  intro t r' hb
  simp [start, Reader.feed, atStatement, hb]

/-! ## The rules -/

/-- What the reader can do with the tokens of a part. -/
def Good : Part → List Token → Prop
  | .input, ts => ∃ p, programOf ts = .ok p
  | .program, ts => ∃ r, start.feedAll ts = .ok r ∧ Closed r []
  | .command, ts => ∀ r L, Begins r L → ∃ r', r.feedAll ts = .ok r' ∧ Closed r' L
  | .stmt, ts => ∀ r L, Begins r L → ∃ r', r.feedAll ts = .ok r' ∧ Closed r' L
  | .stmts, ts => ∀ r L, Begins r (.block :: L) → ∃ r', r.feedAll ts = .ok r' ∧ Closed r' (.block :: L)
  | .block, ts => ∀ L F, Covers L F → ∃ r', Reader.feedAll ⟨.body, F⟩ ts = .ok r' ∧ Closed r' L
  | .statement, ts => ∀ r L, Begins r L → ∃ r', r.feedAll ts = .ok r' ∧ Opened r' L
  | .expression, ts => ReadsOperand false ts
  | .comparison, ts => ReadsOperand true ts

/-- A statement that ends in an expression is complete behind it. -/
theorem completes_operand {F F' : List Frame} {f : Frame} {g : Tree → Tree} (hs : Settled (f :: F))
    (h : Pending (f :: F) F') (hc : ∀ t e c, conclude t e c (f :: F) = complete t (g e) F) (e : Tree) :
    Completes ⟨.operator e false, F'⟩ F := by
  obtain ⟨e', he⟩ := settle_zero hs h e false
  refine ⟨g e', ?_⟩
  intro t ht
  simp only [Reader.feed, operator, level?_of_follows ht, he, hc]

/-- A statement that ends in an expression, from where the expression begins. -/
theorem reads_ending (f : Frame) (g : Tree → Tree) {F : List Frame} {r : Reader} {L : List Layer}
    {ts : List Token} (hr : TakesOperand r (f :: F)) (hs : Settled (f :: F)) (hF : Covers L F)
    (hc : ∀ t e c, conclude t e c (f :: F) = complete t (g e) F) (h : ReadsOperand false ts) :
    ∃ r', r.feedAll ts = .ok r' ∧ Opened r' L := by
  obtain ⟨e, F', h1, h2, -⟩ := h r _ _ hr hs .base
  exact ⟨_, h1, F, hF, .inl (completes_operand hs h2 hc e)⟩

theorem good_assign {l x b : Token} {ts : List Token} (hl : l.kind = .letWord) (hx : x.kind = .name)
    (hb : b.kind = .beWord) (h : ReadsOperand false ts) : Good .statement (l :: x :: b :: ts) := by
  rintro r L ⟨F, hF, hr⟩
  have h1 : r.feed l = some ⟨.target, F⟩ := hr l _ (by simp [begin, hl])
  have h2 : Reader.feed ⟨.target, F⟩ x = some ⟨.be x.payload.string, F⟩ := by simp [Reader.feed, expect, hx]
  have h3 : Reader.feed ⟨.be x.payload.string, F⟩ b = some ⟨.operand, .assigned x.payload.string :: F⟩ := by
    simp [Reader.feed, expect, hb]
  obtain ⟨r', h4, ho⟩ := reads_ending (.assigned x.payload.string) (.assign x.payload.string) (takesOperand _)
    trivial hF (fun _ _ _ => rfl) h
  exact ⟨r', feedAll_cons h1 (feedAll_cons h2 (feedAll_cons h3 h4)), ho⟩

theorem good_give {g : Token} {ts : List Token} (hg : g.kind = .returnWord) (h : ReadsOperand false ts) :
    Good .statement (g :: ts) := by
  rintro r L ⟨F, hF, hr⟩
  have h1 : r.feed g = some ⟨.operand, .given :: F⟩ := hr g _ (by simp [begin, hg])
  obtain ⟨r', h2, ho⟩ := reads_ending .given .give (takesOperand _) trivial hF (fun _ _ _ => rfl) h
  exact ⟨r', feedAll_cons h1 h2, ho⟩

theorem good_print {p : Token} {ts : List Token} (hp : p.kind = .printWord) (h : ReadsOperand false ts) :
    Good .statement (p :: ts) := by
  rintro r L ⟨F, hF, hr⟩
  have h1 : r.feed p = some ⟨.printable, F⟩ := hr p _ (by simp [begin, hp])
  have ht : TakesOperand ⟨.printable, F⟩ (.printed :: F) := by
    intro t r' ht
    simp [Reader.feed, ht]
  obtain ⟨r', h2, ho⟩ := reads_ending .printed .print ht trivial hF (fun _ _ _ => rfl) h
  exact ⟨r', feedAll_cons h1 h2, ho⟩

theorem good_printEmpty {p : Token} (hp : p.kind = .printWord) : Good .statement [p] := by
  rintro r L ⟨F, hF, hr⟩
  have h1 : r.feed p = some ⟨.printable, F⟩ := hr p _ (by simp [begin, hp])
  refine ⟨_, feedAll_cons h1 rfl, F, hF, .inl ⟨.print .none, fun t ht => ?_⟩⟩
  simp [Reader.feed, operand_of_follows ht]

theorem completes_ended (s : Tree) (F : List Frame) : Completes ⟨.ended s, F⟩ F :=
  ⟨s, fun _ _ => rfl⟩

theorem good_jump {g i n : Token} (hg : g.kind = .gotoWord) (hi : i.kind = .instructionWord)
    (hn : n.kind = .number) : Good .statement [g, i, n] := by
  rintro r L ⟨F, hF, hr⟩
  have h1 : r.feed g = some ⟨.instruction, F⟩ := hr g _ (by simp [begin, hg])
  have h2 : Reader.feed ⟨.instruction, F⟩ i = some ⟨.jumpLabel, F⟩ := by simp [Reader.feed, expect, hi]
  have h3 : Reader.feed ⟨.jumpLabel, F⟩ n = some ⟨.ended (.jump n.payload.tree), F⟩ := by
    simp [Reader.feed, expect, hn]
  exact ⟨_, feedAll_cons h1 (feedAll_cons h2 (feedAll_cons h3 rfl)), F, hF, .inl (completes_ended _ F)⟩

theorem good_mark {m n : Token} (hm : m.kind = .marker) (hn : n.kind = .number) : Good .statement [m, n] := by
  rintro r L ⟨F, hF, hr⟩
  have h1 : r.feed m = some ⟨.markLabel, F⟩ := hr m _ (by simp [begin, hm])
  have h2 : Reader.feed ⟨.markLabel, F⟩ n = some ⟨.ended (.mark n.payload.tree), F⟩ := by
    simp [Reader.feed, expect, hn]
  exact ⟨_, feedAll_cons h1 (feedAll_cons h2 rfl), F, hF, .inl (completes_ended _ F)⟩

/-- The beginning of a conditional statement, up to its `then`. -/
theorem reads_test {i c d : Token} {ts : List Token} (hi : i.kind = .ifWord) (hc : c.kind = .comma)
    (hd : d.kind = .thenWord) (h : ReadsOperand true ts) {r : Reader} {L : List Layer} (hr : Begins r L) :
    ∃ test F, r.feedAll (i :: (ts ++ [c, d])) = .ok ⟨.body, .thenPart test :: F⟩ ∧ Covers L F := by
  obtain ⟨F, hF, hr⟩ := hr
  have h1 : r.feed i = some ⟨.operand, .tested :: F⟩ := hr i _ (by simp [begin, hi])
  have hs : Settled (.tested :: F) := trivial
  obtain ⟨e, F', h2, hp, hk⟩ := h _ _ _ (takesOperand _) hs .base
  obtain ⟨test, he⟩ := settle_zero hs hp e false
  rw [hk (.inr rfl)] at he
  have h3 : Reader.feed ⟨.operator e false, F'⟩ c = some ⟨.thenWord test, F⟩ := by
    simp [Reader.feed, operator, TokenKind.level?, hc, he, conclude]
  have h4 : Reader.feed ⟨.thenWord test, F⟩ d = some ⟨.body, .thenPart test :: F⟩ := by
    simp [Reader.feed, expect, hd]
  exact ⟨test, F, feedAll_cons h1 (feedAll_append h2 (feedAll_cons h3 (feedAll_cons h4 rfl))), hF⟩

theorem good_when {i c d : Token} {ts bs : List Token} (hi : i.kind = .ifWord) (hc : c.kind = .comma)
    (hd : d.kind = .thenWord) (h : ReadsOperand true ts) (hb : Good .block bs) :
    Good .statement (i :: (ts ++ [c, d]) ++ bs) := by
  intro r L hr
  obtain ⟨test, F, h1, hF⟩ := reads_test hi hc hd h hr
  obtain ⟨r', h2, hr'⟩ := hb _ _ hF.thenPart
  exact ⟨r', feedAll_append h1 h2, hr'.opened (by decide)⟩

theorem good_choose {i c d e : Token} {ts bs os : List Token} (hi : i.kind = .ifWord) (hc : c.kind = .comma)
    (hd : d.kind = .thenWord) (he : e.kind = .elseWord) (h : ReadsOperand true ts) (hb : Good .block bs)
    (ho : Good .block os) : Good .statement (i :: (ts ++ [c, d]) ++ (bs ++ e :: os)) := by
  intro r L hr
  obtain ⟨test, F, h1, hF⟩ := reads_test hi hc hd h hr
  obtain ⟨r1, h2, hr1⟩ := hb _ _ hF.thenPart
  -- `test'` and `body` can be those of an inner statement; what counts is that `L` stays covered.
  obtain ⟨test', body, F', h3, hF'⟩ := hr1.feed_else he
  obtain ⟨r2, h4, hr2⟩ := ho _ _ hF'.elsePart
  exact ⟨r2, feedAll_append h1 (feedAll_append h2 (feedAll_cons h3 h4)), hr2.opened (by decide)⟩

theorem good_block {n i d : Token} {ts : List Token} (hn : n.kind = .newline) (hi : i.kind = .indent)
    (hd : d.kind = .dedent) (h : Good .stmts ts) : Good .block (n :: i :: (ts ++ [d])) := by
  intro L F hF
  have h1 : Reader.feed ⟨.body, F⟩ n = some ⟨.indent, F⟩ := by simp [Reader.feed, hn]
  have h2 : Reader.feed ⟨.indent, F⟩ i = some ⟨.statement, .block [] :: F⟩ := by simp [Reader.feed, expect, hi]
  obtain ⟨r1, h3, hr1⟩ := h _ _ (begins_statement hF)
  obtain ⟨r2, h4, hr2⟩ := hr1.feed_dedent hd
  exact ⟨r2, feedAll_cons h1 (feedAll_cons h2 (feedAll_append h3 (feedAll_cons h4 rfl))), hr2⟩

/-- An expression as a whole program. -/
theorem good_programExpression {ts : List Token} (h : ReadsOperand false ts) : Good .program ts := by
  have ht : TakesOperand start [.program []] := by
    intro t r' ht
    -- No token begins both a statement and an operand.
    have hb : begin t [.program []] = none := by
      cases hb : begin t [.program []] with
      | none => rfl
      | some r => rw [operand_of_follows (begin_kind hb).1] at ht; cases ht
    simp [start, Reader.feed, atStatement, hb, ht]
  have hs : Settled [.program []] := trivial
  obtain ⟨e, F, h1, hp, -⟩ := h _ _ _ ht hs .base
  obtain ⟨e', he⟩ := settle_zero hs hp e false
  refine ⟨_, h1, [.program []], .program, .inr ⟨e', _, rfl, fun t ht => ?_⟩⟩
  simp [Reader.feed, operator, level?_of_follows ht, he, conclude]

/-- A token of its kind, or a part that the reader can read. -/
def Piece : Sym → List Token → Prop
  | .terminal k, ts => ∃ t, t.kind = k ∧ ts = [t]
  | .nonterminal p, ts => Good p ts

/-- Whatever a rule puts together the reader can read if it can read the pieces. -/
theorem good_rule (r : Rule) (us : List (List Token)) (h : List.Forall₂ Piece r.right us) :
    Good r.left us.flatten := by
  cases r with
  | input =>
    obtain _ | ⟨⟨r, h1, hr⟩, _ | ⟨⟨t, ht, rfl⟩, _ | _⟩⟩ := h
    obtain ⟨done, h2⟩ := hr.feed_endMarker ht
    exact ⟨done.reverse, programOf_eq_ok.2 ⟨_, feedAll_append h1 (feedAll_cons h2 rfl), rfl⟩⟩
  | programNewline =>
    obtain _ | ⟨⟨r, h1, hr⟩, _ | ⟨⟨t, ht, rfl⟩, _ | _⟩⟩ := h
    obtain ⟨r', h2, hr'⟩ := hr.feed_newline ht
    exact ⟨r', feedAll_append h1 (feedAll_cons h2 rfl), hr'⟩
  | programCommand =>
    obtain _ | ⟨⟨r, h1, hr⟩, _ | ⟨hc, _ | _⟩⟩ := h
    obtain ⟨r', h2, hr'⟩ := hc r [] hr.begins_program
    refine ⟨r', feedAll_append h1 ?_, hr'⟩
    simpa using h2
  | programFirst =>
    obtain _ | ⟨hc, _ | _⟩ := h
    simpa [Rule.left, Good] using hc start [] begins_start
  | programExpression =>
    obtain _ | ⟨he, _ | _⟩ := h
    simpa [Rule.left, Good] using good_programExpression he
  | command | stmtsOne =>
    obtain _ | ⟨hs, _ | _⟩ := h
    simpa [Rule.left, Good] using fun r L hr => hs r _ hr
  | stmtNewline =>
    obtain _ | ⟨hs, _ | ⟨⟨t, ht, rfl⟩, _ | _⟩⟩ := h
    intro r L hr
    obtain ⟨r1, h1, hr1⟩ := hs r L hr
    obtain ⟨r2, h2, hr2⟩ := hr1.newline ht
    exact ⟨r2, feedAll_append h1 (feedAll_cons h2 rfl), hr2⟩
  | stmtBare =>
    obtain _ | ⟨hs, _ | _⟩ := h
    intro r L hr
    obtain ⟨r1, h1, hr1⟩ := hs r L hr
    exact ⟨r1, by simpa using h1, hr1.closed⟩
  | stmtsMore =>
    obtain _ | ⟨hss, _ | ⟨hs, _ | _⟩⟩ := h
    intro r L hr
    obtain ⟨r1, h1, hr1⟩ := hss r L hr
    obtain ⟨r2, h2, hr2⟩ := hs r1 _ hr1.begins_block
    refine ⟨r2, feedAll_append h1 ?_, hr2⟩
    simpa using h2
  | blockIndented =>
    obtain _ | ⟨⟨n, hn, rfl⟩, _ | ⟨⟨i, hi, rfl⟩, _ | ⟨hs, _ | ⟨⟨d, hd, rfl⟩, _ | _⟩⟩⟩⟩ := h
    simpa [Rule.left, Good] using good_block hn hi hd hs
  | blockInline =>
    obtain _ | ⟨hs, _ | _⟩ := h
    intro L F hF
    simpa [Rule.left, Good] using hs _ L (begins_body hF)
  | assign =>
    obtain _ | ⟨⟨l, hl, rfl⟩, _ | ⟨⟨x, hx, rfl⟩, _ | ⟨⟨b, hb, rfl⟩, _ | ⟨he, _ | _⟩⟩⟩⟩ := h
    simpa [Rule.left, Good] using good_assign hl hx hb he
  | when =>
    obtain _ | ⟨⟨i, hi, rfl⟩, _ | ⟨ht, _ | ⟨⟨c, hc, rfl⟩, _ | ⟨⟨d, hd, rfl⟩, _ | ⟨hb, _ | _⟩⟩⟩⟩⟩ := h
    simpa [Rule.left, Good] using good_when hi hc hd ht hb
  | choose =>
    obtain _ | ⟨⟨i, hi, rfl⟩, _ | ⟨ht, _ | ⟨⟨c, hc, rfl⟩, _ | ⟨⟨d, hd, rfl⟩, _ | ⟨hb, _ | ⟨⟨e, he, rfl⟩, _ | ⟨ho, _ | _⟩⟩⟩⟩⟩⟩⟩ := h
    simpa [Rule.left, Good] using good_choose hi hc hd he ht hb ho
  | give =>
    obtain _ | ⟨⟨g, hg, rfl⟩, _ | ⟨he, _ | _⟩⟩ := h
    simpa [Rule.left, Good] using good_give hg he
  | print =>
    obtain _ | ⟨⟨p, hp, rfl⟩, _ | ⟨he, _ | _⟩⟩ := h
    simpa [Rule.left, Good] using good_print hp he
  | printEmpty =>
    obtain _ | ⟨⟨p, hp, rfl⟩, _ | _⟩ := h
    exact good_printEmpty hp
  | jump =>
    obtain _ | ⟨⟨g, hg, rfl⟩, _ | ⟨⟨i, hi, rfl⟩, _ | ⟨⟨n, hn, rfl⟩, _ | _⟩⟩⟩ := h
    exact good_jump hg hi hn
  | mark =>
    obtain _ | ⟨⟨m, hm, rfl⟩, _ | ⟨⟨n, hn, rfl⟩, _ | _⟩⟩ := h
    exact good_mark hm hn
  | sum | difference =>
    obtain _ | ⟨hx, _ | ⟨⟨t, ht, rfl⟩, _ | ⟨hy, _ | _⟩⟩⟩ := h
    have hl : t.kind.level? = some 2 := by rw [ht]; rfl
    simpa [Rule.left, Good] using readsOperand_binary hl hx hy
  | product | quotient =>
    obtain _ | ⟨hx, _ | ⟨⟨t, ht, rfl⟩, _ | ⟨hy, _ | _⟩⟩⟩ := h
    have hl : t.kind.level? = some 3 := by rw [ht]; rfl
    simpa [Rule.left, Good] using readsOperand_binary hl hx hy
  | negation =>
    obtain _ | ⟨⟨t, ht, rfl⟩, _ | ⟨he, _ | _⟩⟩ := h
    simpa [Rule.left, Good] using readsOperand_negation ht he
  | number | string | name | truth =>
    obtain _ | ⟨⟨t, ht, rfl⟩, _ | _⟩ := h
    exact readsOperand_token fun F => by simp only [operand, ht]; rfl
  | group =>
    obtain _ | ⟨⟨p, hp, rfl⟩, _ | ⟨he, _ | ⟨⟨q, hq, rfl⟩, _ | _⟩⟩⟩ := h
    simpa [Rule.left, Good] using readsOperand_group hp hq he
  | compared =>
    obtain _ | ⟨hc, _ | _⟩ := h
    simpa [Rule.left, Good] using hc.weaken
  | comparison =>
    obtain _ | ⟨hx, _ | ⟨⟨t, ht, rfl⟩, _ | ⟨hy, _ | _⟩⟩⟩ := h
    have hl : t.kind.level? = some 1 := by rw [ht]; rfl
    simpa [Rule.left, Good] using readsOperand_binary hl hx hy

/-- The reader reads whatever derives as a whole program. -/
theorem programOf_of_yields {ts : List Token} {v : Tree} (h : Yields .input ts v) :
    ∃ p, programOf ts = .ok p := by
  obtain ⟨us, rfl, hu⟩ := h.forall_pieces (fun t => ⟨t, rfl, rfl⟩ : ∀ t, Piece (tok t.kind) [t]) good_rule
  match us, hu with
  | [u], .cons hg .nil =>
    have hg : ∃ p, programOf u = .ok p := hg
    simpa using hg

/-- The reader accepts exactly the token sequences that the grammar generates, whichever way their open choices
are made, and returns the tree that one of their derivations builds. -/
theorem programOf_ok_iff_generated (ts : List Token) :
    ((∃ p, programOf ts = .ok p) ↔ ts.map Token.kind ∈ grammar.language) ∧
      ∀ p, programOf ts = .ok p → Yields .input ts (.list p) := by
  refine ⟨⟨?_, ?_⟩, fun p h => yields_of_programOf h⟩
  · rintro ⟨p, h⟩
    exact mem_language_iff_yields.2 ⟨_, yields_of_programOf h⟩
  · intro h
    obtain ⟨v, hv⟩ := mem_language_iff_yields.1 h
    exact programOf_of_yields hv

/-- The tokens of `if a < b, then if a < b, then print` and a line `else print`. -/
def twoTests : List Token :=
  let test (line : Nat) : List Token :=
    [⟨.ifWord, .text "if", line, 0⟩, ⟨.name, .text "a", line, 3⟩, ⟨.comparison, .text "<", line, 5⟩,
      ⟨.name, .text "b", line, 7⟩, ⟨.comma, .text ",", line, 8⟩, ⟨.thenWord, .text "then", line, 10⟩]
  test 1 ++ test 1 ++ [⟨.printWord, .text "print", 1, 30⟩, ⟨.newline, .text "\n", 1, 35⟩,
    ⟨.elseWord, .text "else", 2, 36⟩, ⟨.printWord, .text "print", 2, 41⟩, endMarker (some 2)]

/-- The `else` and the line end before it belong to the inner of two conditional statements, though they could
belong to the outer one. -/
theorem generated_twoTests :
    let test : Tree := .comparison "<" [.name "a", .name "b"]
    let program : List Tree := [.when test (.choose test (.print .none) (.print .none))]
    programOf twoTests = .ok program ∧ twoTests.map Token.kind ∈ grammar.language ∧
      Yields .input twoTests (.list program) := by
  intro test program
  have h : programOf twoTests = .ok program := rfl
  obtain ⟨h1, h2⟩ := programOf_ok_iff_generated twoTests
  exact ⟨h, h1.1 ⟨program, h⟩, h2 program h⟩

end Pseudocode.Reader
