import Pseudocode.Token.Layout

/-!
# How a layout is worked out

The scanner, the tracker of lines and the indenter run together, piece by piece. A `Stage` is where all three
stand, with the tokens that the scanner has made and those that were given out. `Stage.next` takes one piece and
`Stage.Next` says what that can do. The tokens of a text are what the stages of its pieces give out:
`Reached.out_tokens`, `Reached.fault`, `tokens_ends`.

The tracker knows no more than the last two tokens given out (`Reached.tracks`): a block is due exactly where a
`then` or an `else` and the end of its line are the last ones. And a line ends only right behind a token that is
written in it (`linesWritten_tokens`), so that no two line ends stand side by side.
-/

namespace Pseudocode

/-! ## Kinds of token -/

namespace TokenKind

/-- The words behind which a block can begin. -/
def asksBlock : TokenKind → Bool
  | .thenWord | .elseWord => true
  | _ => false

/-- The kinds of token that are written in a line. -/
def isReal : TokenKind → Bool
  | .newline | .blank | .indent | .dedent | .endMarker => false
  | _ => true

end TokenKind

/-- The kinds of piece that always make a token. -/
def PieceKind.isSolid : PieceKind → Bool
  | .blanks | .lineEnds | .comment => false
  | _ => true

namespace Piece

theorem wordKind_isReal (w : String) : (wordKind w).isReal := by
  unfold wordKind
  split <;> rfl

/-- What kind of token a piece makes. -/
theorem tokenKind?_cases {p : Piece} {opening nested : Bool} {k : TokenKind}
    (h : p.tokenKind? opening nested = some k) :
    (p.kind = .blanks ∧ k = .blank ∧ opening = true ∧ nested = false) ∨
      (p.kind = .lineEnds ∧ k = .newline ∧ nested = false) ∨ (p.kind.isSolid ∧ k.isReal) := by
  obtain ⟨kind, cs⟩ := p
  unfold tokenKind? at h
  cases kind with
  | blanks =>
    dsimp only at h
    split at h <;> cases h
    rename_i hc
    simp only [Bool.and_eq_true, Bool.not_eq_true'] at hc
    exact .inl ⟨rfl, rfl, hc⟩
  | lineEnds =>
    dsimp only at h
    split at h <;> cases h
    rename_i hn
    exact .inr (.inl ⟨rfl, rfl, by simpa using hn⟩)
  | comment => cases h
  | word => cases h; exact .inr (.inr ⟨rfl, wordKind_isReal _⟩)
  | _ => cases h; exact .inr (.inr ⟨rfl, rfl⟩)

/-- Which pieces make no token. -/
theorem tokenKind?_none {p : Piece} {opening nested : Bool} (h : p.tokenKind? opening nested = none) :
    p.kind = .comment ∨ (p.kind = .blanks ∧ (opening && !nested) = false) ∨
      (p.kind = .lineEnds ∧ nested = true) := by
  obtain ⟨kind, cs⟩ := p
  unfold tokenKind? at h
  cases kind with
  | comment => exact .inl rfl
  | blanks =>
    dsimp only at h
    split at h
    · cases h
    · exact .inr (.inl ⟨rfl, eq_false_of_ne_true ‹_›⟩)
  | lineEnds =>
    dsimp only at h
    split at h
    · exact .inr (.inr ⟨rfl, ‹_›⟩)
    · cases h
  | _ => cases h

end Piece

/-- The token of a piece has the kind that the piece gives it and stands where the scanner stands. -/
theorem Scanner.token?_some {s : Scanner} {opening : Bool} {p : Piece} {t : Token}
    (h : s.token? opening p = .ok (some t)) :
    p.tokenKind? opening (s.parens != 0) = some t.kind ∧ p.payload = .ok t.payload ∧ t.pos = s.pos := by
  unfold Scanner.token? at h
  split at h
  · cases h
  · rename_i kind hk
    cases hp : p.payload with
    | error f => rw [hp] at h; cases h
    | ok v => rw [hp] at h; cases h; exact ⟨hk, rfl, rfl⟩

theorem Scanner.token?_line {s : Scanner} {opening : Bool} {p : Piece} {t : Token}
    (h : s.token? opening p = .ok (some t)) : t.line = s.line := by
  unfold Scanner.token? at h
  split at h
  · cases h
  · cases hp : p.payload <;> rw [hp] at h <;> cases h
    rfl

theorem Scanner.token?_none {s : Scanner} {opening : Bool} {p : Piece} (h : s.token? opening p = .ok none) :
    p.tokenKind? opening (s.parens != 0) = none := by
  unfold Scanner.token? at h
  split at h
  · assumption
  · cases hp : p.payload <;> rw [hp] at h <;> cases h

/-! ## One token -/

namespace LineTracker

theorem token_step (l : LineTracker) (t : Token) : (l.step t).1.token = t := by
  unfold step
  split <;> rfl

theorem step_newline (l : LineTracker) {t : Token} (h : t.kind = .newline) :
    l.step t = (⟨t, l.opening, false⟩, ⟨true, if l.wait = .atLineEnd then .now else l.wait⟩) := by
  simp only [step, h]

theorem step_blank (l : LineTracker) {t : Token} (h : t.kind = .blank) :
    l.step t = (⟨t, l.opening, false⟩, ⟨true, l.wait⟩) := by
  simp only [step, h]

theorem step_real (l : LineTracker) {t : Token} (h : t.kind.isReal) :
    l.step t = (⟨t, l.opening, !t.kind.asksBlock && l.wait = .now⟩,
      ⟨false, if t.kind.asksBlock then .atLineEnd else .no⟩) := by
  unfold step
  generalize t.kind = k at h ⊢
  cases k <;> first | rfl | cases h

end LineTracker

namespace Indenter

theorem step_blank (d : Indenter) {t : Tracked} (h : t.token.kind = .blank) :
    d.step t = if d.depth = 0 then .ok ([], ⟨d.levels, width t.token, true⟩) else .error .mixedBlanks := by
  simp only [step, h]

theorem step_newline (d : Indenter) {t : Tracked} (h : t.token.kind = .newline) :
    d.step t = .ok (if d.afterBlank || t.opening then [] else [t.token], ⟨d.levels, 0, d.afterBlank⟩) := by
  simp only [step, h]

theorem step_real (d : Indenter) {t : Tracked} (h : t.token.kind.isReal) : d.step t = d.real t := by
  unfold step
  generalize t.token.kind = k at h
  cases k <;> first | rfl | cases h

theorem drop_takeWhile (q : Nat → Bool) (ns : List Nat) : ns.drop (ns.takeWhile q).length = ns.dropWhile q := by
  have h : (ns.takeWhile q ++ ns.dropWhile q).drop (ns.takeWhile q).length = ns.dropWhile q := List.drop_left
  rwa [List.takeWhile_append_dropWhile] at h

end Indenter

/-! ## Stages -/

/-- Where a lexer stands in a text. -/
structure Stage where
  scanner : Scanner
  tracker : LineTracker
  indenter : Indenter
  /-- The tokens given out. -/
  out : List Token

namespace Stage

def start (line : Nat) : Stage :=
  ⟨.start line, .start, .start, []⟩

/-- The stage behind one more piece. -/
def next (s : Stage) (p : Piece) : Except ReadFault Stage :=
  match s.scanner.token? s.tracker.opening p with
  | .error f => .error f
  | .ok none => .ok { s with scanner := s.scanner.after p }
  | .ok (some t) =>
    match s.indenter.step (s.tracker.step t).1 with
    | .error f => .error f
    | .ok (new, d) => .ok ⟨s.scanner.after p, (s.tracker.step t).2, d, s.out ++ new⟩

/-- The stage behind some pieces. -/
def run (s : Stage) : List Piece → Except ReadFault Stage
  | [] => .ok s
  | p :: rest =>
    match s.next p with
    | .error f => .error f
    | .ok s => s.run rest

/-- The token that a stage makes of a piece. -/
def Makes (s : Stage) (p : Piece) (t : Token) : Prop :=
  s.scanner.token? s.tracker.opening p = .ok (some t)

/-- The token that a stage makes of a piece, if it makes one. -/
def made? (s : Stage) (p : Piece) : Option Token :=
  match s.scanner.token? s.tracker.opening p with
  | .ok made => made
  | .error _ => none

/-- What the next stage can be. -/
inductive Next (s : Stage) (p : Piece) : Stage → Prop
  | skipped (h : p.tokenKind? s.tracker.opening (s.scanner.parens != 0) = none) :
      Next s p { s with scanner := s.scanner.after p }
  | blank {t : Token} (hm : Makes s p t) (hk : t.kind = .blank) (ho : s.tracker.opening = true)
      (hd : s.indenter.depth = 0) :
      Next s p ⟨s.scanner.after p, s.tracker, ⟨s.indenter.levels, Indenter.width t, true⟩, s.out⟩
  /-- The end of a line with nothing on it. -/
  | dropped {t : Token} (hm : Makes s p t) (hk : t.kind = .newline)
      (h : (s.indenter.afterBlank || s.tracker.opening) = true) :
      Next s p ⟨s.scanner.after p, (s.tracker.step t).2, ⟨s.indenter.levels, 0, s.indenter.afterBlank⟩, s.out⟩
  | lineEnd {t : Token} (hm : Makes s p t) (hk : t.kind = .newline) (hb : s.indenter.afterBlank = false)
      (ho : s.tracker.opening = false) :
      Next s p ⟨s.scanner.after p, (s.tracker.step t).2, ⟨s.indenter.levels, 0, false⟩, s.out ++ [t]⟩
  | opens {t : Token} (hm : Makes s p t) (hk : t.kind.isReal) (ha : t.kind.asksBlock = false)
      (hw : s.tracker.wait = .now) (hd : s.indenter.level < s.indenter.depth) :
      Next s p ⟨s.scanner.after p, (s.tracker.step t).2,
        ⟨s.indenter.depth :: s.indenter.levels, s.indenter.depth, false⟩, s.out ++ [.ofLayout .indent t.line, t]⟩
  | stays {t : Token} (hm : Makes s p t) (hk : t.kind.isReal) (hw : t.kind.asksBlock = false → s.tracker.wait ≠ .now)
      (hd : s.tracker.opening = true → s.indenter.depth = s.indenter.level) :
      Next s p ⟨s.scanner.after p, (s.tracker.step t).2, ⟨s.indenter.levels, s.indenter.depth, false⟩, s.out ++ [t]⟩
  | closes {t : Token} (hm : Makes s p t) (hk : t.kind.isReal) (ho : s.tracker.opening = true)
      (hd : s.indenter.depth ∈ s.indenter.levels) :
      Next s p ⟨s.scanner.after p, (s.tracker.step t).2,
        ⟨s.indenter.levels.dropWhile (s.indenter.depth < ·), s.indenter.depth, false⟩,
        s.out ++ (Indenter.dedents (s.indenter.levels.takeWhile (s.indenter.depth < ·)).length t.line ++ [t])⟩

theorem Makes.cases {s : Stage} {p : Piece} {t : Token} (h : Makes s p t) :
    (p.kind = .blanks ∧ t.kind = .blank ∧ s.tracker.opening = true ∧ s.scanner.parens = 0) ∨
      (p.kind = .lineEnds ∧ t.kind = .newline ∧ s.scanner.parens = 0) ∨ (p.kind.isSolid ∧ t.kind.isReal) := by
  have hk := Piece.tokenKind?_cases (Scanner.token?_some h).1
  simpa using hk

theorem next_eq {s : Stage} {p : Piece} {t : Token} (hm : Makes s p t) :
    s.next p = match s.indenter.step (s.tracker.step t).1 with
      | .error f => .error f
      | .ok (new, d) => .ok ⟨s.scanner.after p, (s.tracker.step t).2, d, s.out ++ new⟩ := by
  unfold next
  rw [hm]

theorem next_of_blank {s s' : Stage} {p : Piece} {t : Token} (hm : Makes s p t) (hk : t.kind = .blank)
    (ho : s.tracker.opening = true) (h : s.next p = .ok s') : Next s p s' := by
  have hl : s.tracker.step t = (⟨t, s.tracker.opening, false⟩, s.tracker) := by
    rw [LineTracker.step_blank _ hk, ← ho]
  rw [next_eq hm, hl, Indenter.step_blank _ hk] at h
  split at h <;> cases h
  case h_2 hs =>
    split at hs <;> cases hs
    rw [List.append_nil]
    exact .blank hm hk ho ‹_›

theorem next_of_newline {s s' : Stage} {p : Piece} {t : Token} (hm : Makes s p t) (hk : t.kind = .newline)
    (h : s.next p = .ok s') : Next s p s' := by
  have hl : (s.tracker.step t).1 = ⟨t, s.tracker.opening, false⟩ := congrArg Prod.fst (LineTracker.step_newline _ hk)
  rw [next_eq hm, hl, Indenter.step_newline _ hk] at h
  cases hb : s.indenter.afterBlank || s.tracker.opening with
  | true =>
    rw [hb] at h
    cases h
    rw [if_pos rfl, List.append_nil]
    exact .dropped hm hk hb
  | false =>
    rw [hb] at h
    cases h
    rw [Bool.or_eq_false_iff] at hb
    rw [hb.1]
    exact .lineEnd hm hk hb.1 hb.2

theorem next_of_real {s s' : Stage} {p : Piece} {t : Token} (hm : Makes s p t) (hk : t.kind.isReal)
    (h : s.next p = .ok s') : Next s p s' := by
  have hl : (s.tracker.step t).1 = ⟨t, s.tracker.opening, !t.kind.asksBlock && s.tracker.wait = .now⟩ :=
    congrArg Prod.fst (LineTracker.step_real _ hk)
  rw [next_eq hm, hl, Indenter.step_real _ hk] at h
  unfold Indenter.real at h
  dsimp only at h
  split at h <;> cases h
  case h_2 hr =>
    split at hr
    case isTrue hb =>
      simp only [Bool.and_eq_true, Bool.not_eq_true', decide_eq_true_eq] at hb
      split at hr <;> cases hr
      exact .opens hm hk hb.1 hb.2 ‹_›
    case isFalse hb =>
      have hb : t.kind.asksBlock = false → s.tracker.wait ≠ .now := by simpa using hb
      split at hr
      case isTrue ho =>
        split at hr
        case isTrue hd => cases hr; exact .stays hm hk hb fun _ => hd
        case isFalse =>
          split at hr
          · cases hr
          · split at hr <;> cases hr
            rw [Indenter.drop_takeWhile]
            exact .closes hm hk ho ‹_›
      case isFalse ho => cases hr; exact .stays hm hk hb fun hp => absurd hp ho

theorem next_of_ok {s s' : Stage} {p : Piece} (h : s.next p = .ok s') : Next s p s' := by
  cases ht : s.scanner.token? s.tracker.opening p with
  | error f =>
    unfold next at h
    rw [ht] at h
    cases h
  | ok made =>
    cases made with
    | none =>
      unfold next at h
      rw [ht] at h
      cases h
      exact .skipped (Scanner.token?_none ht)
    | some t =>
      rcases Makes.cases ht with ⟨-, hk, ho, -⟩ | ⟨-, hk, -⟩ | ⟨-, hk⟩
      · exact next_of_blank ht hk ho h
      · exact next_of_newline ht hk h
      · exact next_of_real ht hk h

theorem run_cons {s s₁ : Stage} {p : Piece} {ps : List Piece} {x : Except ReadFault Stage} (hn : s.next p = .ok s₁)
    (hx : s₁.run ps = x) : s.run (p :: ps) = x := by
  rw [run, hn]
  exact hx

theorem run_cons_ok {s s₂ : Stage} {p : Piece} {ps : List Piece} (h : s.run (p :: ps) = .ok s₂) :
    ∃ s₁, s.next p = .ok s₁ ∧ s₁.run ps = .ok s₂ := by
  rw [run] at h
  split at h
  · cases h
  · exact ⟨_, ‹_›, h⟩

theorem run_append (s : Stage) (ps qs : List Piece) :
    s.run (ps ++ qs) = match s.run ps with
      | .error f => .error f
      | .ok s => s.run qs := by
  induction ps generalizing s with
  | nil => rfl
  | cons p ps ih =>
    rw [List.cons_append, run, run]
    cases s.next p with
    | error f => rfl
    | ok s => exact ih s

theorem run_snoc {s s' s'' : Stage} {ps : List Piece} {p : Piece} (h : s.run ps = .ok s') (hn : s'.next p = .ok s'') :
    s.run (ps ++ [p]) = .ok s'' := by
  rw [run_append, h]
  simp only [run, hn]

/-- What every stage hands on to the next one, with the pieces read so far, holds of all stages that are reached. -/
theorem run_keeps {I : List Piece → Stage → Prop} {all : List Piece}
    (hn : ∀ ps p s s', ps ++ [p] <+: all → I ps s → s.next p = .ok s' → I (ps ++ [p]) s') {s s' : Stage}
    {done ps : List Piece} (hp : done ++ ps <+: all) (h : s.run ps = .ok s') (hs : I done s) : I (done ++ ps) s' := by
  induction ps generalizing s done with
  | nil =>
    cases h
    rwa [List.append_nil]
  | cons p ps ih =>
    obtain ⟨s₁, h₁, h₂⟩ := run_cons_ok h
    rw [← List.singleton_append, ← List.append_assoc] at hp ⊢
    exact ih hp h₂ (hn done p s s₁ ((List.prefix_append _ _).trans hp) hs h₁)

/-- A run comes to the end of the pieces, or to a piece that it cannot take. -/
theorem run_ends (s : Stage) (ps : List Piece) :
    ∃ qs rest s', ps = qs ++ rest ∧ s.run qs = .ok s' ∧
      (rest = [] ∨ ∃ p more f, rest = p :: more ∧ s'.next p = .error f) := by
  induction ps generalizing s with
  | nil => exact ⟨[], [], s, rfl, rfl, .inl rfl⟩
  | cons p ps ih =>
    cases hn : s.next p with
    | error f => exact ⟨[], p :: ps, s, rfl, rfl, .inr ⟨p, ps, f, rfl, hn⟩⟩
    | ok s₁ =>
      obtain ⟨qs, rest, s', rfl, hr, hc⟩ := ih s₁
      exact ⟨p :: qs, rest, s', rfl, run_cons hn hr, hc⟩

/-! ## Stages and the tokens of a text -/

/-- The line of the last one of some tokens. -/
def endLine (ts : List Token) : Option Nat :=
  ts.getLast?.map Token.line

/-- What was given out and all that is given out from here on, and the fault at the end. -/
def whole (mark : Bool) (left : List Char) (s : Stage) (seen put : Option Nat) (ps : List Piece) :
    List Token × Option ReadFault :=
  let tracked := track s.scanner s.tracker left ps
  let stream := layOut mark tracked.fault tracked.last s.indenter seen put tracked.items
  (s.out ++ stream.items.map Prod.fst, stream.fault)

section

variable (mark : Bool) (left : List Char) {s s' : Stage} (seen put : Option Nat)

theorem whole_next {p : Piece} (h : s.next p = .ok s') (ps : List Piece) :
    whole mark left s seen put (p :: ps) =
      whole mark left s' (((s.made? p).map Token.line).or seen)
        ((endLine (s'.out.drop s.out.length)).or put) ps := by
  cases ht : s.scanner.token? s.tracker.opening p with
  | error f =>
    unfold next at h
    rw [ht] at h
    cases h
  | ok made =>
    have hm : s.made? p = made := by
      unfold made?
      rw [ht]
    rw [hm]
    cases made with
    | none =>
      unfold next at h
      rw [ht] at h
      cases h
      unfold whole
      rw [track, ht, List.drop_length]
      rfl
    | some t =>
      rw [next_eq ht] at h
      cases hs : s.indenter.step (s.tracker.step t).1 with
      | error f => rw [hs] at h; cases h
      | ok made =>
        obtain ⟨new, d⟩ := made
        rw [hs] at h
        cases h
        unfold whole
        rw [track, ht]
        dsimp only [Stream.cons]
        rw [layOut, hs, LineTracker.token_step, List.drop_left]
        dsimp only
        rw [List.map_append, List.map_map, ← List.append_assoc]
        simp [Function.comp_def, endLine]

theorem whole_error {p : Piece} {f : ReadFault} (h : s.next p = .error f) (ps : List Piece) :
    whole mark left s seen put (p :: ps) = (s.out, some f) := by
  cases ht : s.scanner.token? s.tracker.opening p with
  | error f =>
    unfold next at h
    rw [ht] at h
    cases h
    unfold whole
    rw [track, ht]
    simp [layOut]
  | ok made =>
    cases made with
    | none =>
      unfold next at h
      rw [ht] at h
      cases h
    | some t =>
      rw [next_eq ht] at h
      cases hs : s.indenter.step (s.tracker.step t).1 with
      | ok made => rw [hs] at h; cases h
      | error f =>
        rw [hs] at h
        cases h
        unfold whole
        rw [track, ht]
        dsimp only [Stream.cons]
        rw [layOut, hs]
        simp

theorem whole_run {ps : List Piece} (h : s.run ps = .ok s') (qs : List Piece) :
    ∃ seen' put', whole mark left s seen put (ps ++ qs) = whole mark left s' seen' put' qs := by
  induction ps generalizing s seen put with
  | nil => cases h; exact ⟨seen, put, rfl⟩
  | cons p ps ih =>
    rw [run] at h
    split at h
    · cases h
    · rename_i s₁ hn
      obtain ⟨seen', put', h'⟩ := ih _ _ h
      exact ⟨seen', put', (whole_next mark left seen put hn (ps ++ qs)).trans h'⟩

theorem whole_finish :
    whole mark [] s seen put [] =
      let closing := Indenter.dedents (s.indenter.levels.length - 1) (seen.getD 1)
      (s.out ++ closing ++ (if mark then [endMarker ((endLine closing).or put)] else []), none) := by
  simp [whole, track, Stream.ended, layOut, Indenter.finish, Function.comp_def, endLine]

theorem whole_end :
    ∃ n m, whole mark [] s seen put [] =
      (s.out ++ Indenter.dedents (s.indenter.levels.length - 1) n ++ (if mark then [endMarker m] else []), none) :=
  ⟨_, _, whole_finish mark seen put⟩

theorem whole_nil :
    (left = [] ∧ ∃ n m, whole mark left s seen put [] =
        (s.out ++ Indenter.dedents (s.indenter.levels.length - 1) n ++ (if mark then [endMarker m] else []), none)) ∨
      ∃ f, whole mark left s seen put [] = (s.out, some f) := by
  cases left with
  | nil => exact .inl ⟨rfl, whole_end mark seen put⟩
  | cons c left => exact .inr ⟨.unknownSymbol c, by simp [whole, track, Stream.ended, layOut]⟩

end

end Stage

/-- The tokens of a text. -/
def tokens (line : Nat) (mark : Bool) (text : List Char) : List Token :=
  (tokenize line mark text).items.map Prod.fst

theorem tokenize_eq_whole (line : Nat) (mark : Bool) (text : List Char) :
    (tokens line mark text, (tokenize line mark text).fault) =
      Stage.whole mark (Piece.cut text).2 (Stage.start line) none none (Piece.cut text).1 :=
  rfl

/-- A lexer that was given a text stands behind some of its pieces. -/
structure Reached (line : Nat) (text : List Char) (ps : List Piece) (s : Stage) : Prop where
  pieces : ps <+: (Piece.cut text).1
  run : (Stage.start line).run ps = .ok s

section

variable {line : Nat} {text : List Char} {ps : List Piece} {s : Stage}

theorem Reached.next {p : Piece} {s' : Stage} (h : Reached line text ps s) (hp : ps ++ [p] <+: (Piece.cut text).1)
    (hn : s.next p = .ok s') : Reached line text (ps ++ [p]) s' :=
  ⟨hp, Stage.run_snoc h.run hn⟩

/-- What holds at the start, and behind every piece if it holds before, holds of all stages that are reached. -/
theorem Reached.keeps {I : List Piece → Stage → Prop} (h0 : I [] (.start line))
    (hn : ∀ {ps p s s'}, Reached line text ps s → Reached line text (ps ++ [p]) s' → s.Next p s' → I ps s →
      I (ps ++ [p]) s') (h : Reached line text ps s) : I ps s := by
  have hk := @Stage.run_keeps (fun ps s => Reached line text ps s ∧ I ps s) (Piece.cut text).1
    (fun ps p s s' hp hi hs => ⟨hi.1.next hp hs, hn hi.1 (hi.1.next hp hs) (Stage.next_of_ok hs) hi.2⟩)
    (.start line) s [] ps h.pieces h.run ⟨⟨List.nil_prefix, rfl⟩, h0⟩
  exact hk.2

/-- The tokens given out so far are the first ones of the text. -/
theorem Reached.out_tokens (h : Reached line text ps s) (mark : Bool) : s.out <+: tokens line mark text := by
  obtain ⟨qs, hq⟩ := h.pieces
  have ht := tokenize_eq_whole line mark text
  obtain ⟨seen, put, hw⟩ := Stage.whole_run mark (Piece.cut text).2 none none h.run qs
  rw [← hq, hw] at ht
  have ho : tokens line mark text = (Stage.whole mark (Piece.cut text).2 s seen put qs).1 := congrArg Prod.fst ht
  rw [ho]
  exact List.prefix_append _ _

/-- A piece that cannot be taken ends the tokens. -/
theorem Reached.fault (h : Reached line text ps s) {p : Piece} (hp : ps ++ [p] <+: (Piece.cut text).1) {f : ReadFault}
    (hn : s.next p = .error f) (mark : Bool) :
    tokens line mark text = s.out ∧ (tokenize line mark text).fault = some f := by
  obtain ⟨qs, hq⟩ := hp
  have ht := tokenize_eq_whole line mark text
  obtain ⟨seen, put, hw⟩ := Stage.whole_run mark (Piece.cut text).2 none none h.run (p :: qs)
  rw [List.append_assoc, List.singleton_append] at hq
  rw [← hq, hw, Stage.whole_error mark _ seen put hn] at ht
  exact ⟨congrArg Prod.fst ht, congrArg Prod.snd ht⟩

/-- All tokens are given out by the last stage that is reached, but for the dedents and the marker at the end of a
text without a fault. -/
theorem tokens_ends (line : Nat) (mark : Bool) (text : List Char) :
    ∃ ps s, Reached line text ps s ∧
      (((tokenize line mark text).fault ≠ none ∧ tokens line mark text = s.out) ∨
        ((tokenize line mark text).fault = none ∧ ∃ n m, tokens line mark text =
          s.out ++ Indenter.dedents (s.indenter.levels.length - 1) n ++ if mark then [endMarker m] else [])) := by
  obtain ⟨ps, rest, s, hp, hr, hc⟩ := Stage.run_ends (.start line) (Piece.cut text).1
  have hs : Reached line text ps s := ⟨⟨rest, hp.symm⟩, hr⟩
  refine ⟨ps, s, hs, ?_⟩
  rcases hc with rfl | ⟨p, more, f, rfl, hn⟩
  · have ht := tokenize_eq_whole line mark text
    obtain ⟨seen, put, hw⟩ := Stage.whole_run mark (Piece.cut text).2 none none hr []
    rw [hp, hw] at ht
    rcases Stage.whole_nil mark (Piece.cut text).2 seen put with ⟨-, n, m, he⟩ | ⟨f, he⟩
    · rw [he] at ht
      exact .inr ⟨congrArg Prod.snd ht, n, m, congrArg Prod.fst ht⟩
    · rw [he] at ht
      have hf : (tokenize line mark text).fault = some f := congrArg Prod.snd ht
      exact .inl ⟨by simp [hf], congrArg Prod.fst ht⟩
  · obtain ⟨ho, hf⟩ := hs.fault ⟨more, by simp [hp]⟩ hn mark
    exact .inl ⟨by simp [hf], ho⟩

end

/-! ## What the tracker knows -/

/-- What tokens given out, the last one first, say about the line. -/
def LineTracker.behind : List Token → LineTracker
  | [] => start
  | t :: rest =>
    if t.kind = .newline then ⟨true, if rest.head?.any (·.kind.asksBlock) then .now else .no⟩
    else ⟨false, if t.kind.asksBlock then .atLineEnd else .no⟩

theorem LineTracker.behind_opening {ts : List Token} (h : (behind ts).opening = true) :
    (behind ts).wait ≠ .atLineEnd := by
  cases ts with
  | nil => nofun
  | cons t rest =>
    rw [behind] at h ⊢
    split at h
    · rw [if_pos ‹_›]
      dsimp only
      split <;> nofun
    · cases h

/-- Behind the end of a line, a block is due if its last token asks for one. -/
theorem LineTracker.step_behind {ts : List Token} {n : Token} (hn : n.kind = .newline)
    (ho : (behind ts).opening = false) : ((behind ts).step n).2 = behind (n :: ts) := by
  rw [step_newline _ hn]
  cases ts with
  | nil => cases ho
  | cons t rest =>
    have hb : behind (n :: t :: rest) = ⟨true, if t.kind.asksBlock then .now else .no⟩ := by
      rw [behind, if_pos hn]
      rfl
    rw [hb]
    rw [behind] at ho ⊢
    split at ho
    · cases ho
    · rw [if_neg ‹_›]
      cases ha : t.kind.asksBlock <;> simp

/-- A word that asks for a block and the end of its line are the last tokens. -/
def EndsAsking (ts : List Token) : Prop :=
  ∃ pre a n, ts = pre ++ [a, n] ∧ a.kind.asksBlock ∧ n.kind = .newline

theorem LineTracker.wait_behind (ts : List Token) : (behind ts.reverse).wait = .now ↔ EndsAsking ts := by
  constructor
  · intro h
    generalize hr : ts.reverse = rs at h
    rw [List.reverse_eq_iff] at hr
    match rs with
    | [] => cases h
    | [n] =>
      rw [behind] at h
      split at h
      · cases h
      · dsimp only at h
        split at h <;> cases h
    | n :: a :: pre =>
      rw [behind] at h
      split at h
      case isTrue hn =>
        have ha : a.kind.asksBlock := by
          cases ha : a.kind.asksBlock with
          | true => rfl
          | false => simp [ha] at h
        exact ⟨pre.reverse, a, n, by simp [hr], ha, hn⟩
      case isFalse =>
        dsimp only at h
        split at h <;> cases h
  · rintro ⟨pre, a, n, rfl, ha, hn⟩
    simp [behind, ha, hn]

/-- A token that is written in a line is the last one. -/
def EndsReal (ts : List Token) : Prop :=
  ∃ pre t, ts = pre ++ [t] ∧ t.kind.isReal

namespace Stage

/-- The tracker knows what the tokens given out say, and blanks are seen only where a line opens. -/
structure Tracks (s : Stage) : Prop where
  tracker : s.tracker = .behind s.out.reverse
  blank : s.indenter.afterBlank = true → s.tracker.opening = true
  written : s.tracker.opening = false → EndsReal s.out

/-- Behind a token that is written in a line. -/
theorem tracks_real {s : Stage} {p : Piece} {t : Token} (hk : t.kind.isReal) (levels : List Nat) (depth : Nat)
    (out new : List Token) :
    Tracks ⟨s.scanner.after p, (s.tracker.step t).2, ⟨levels, depth, false⟩, out ++ (new ++ [t])⟩ := by
  have hn : t.kind ≠ .newline := by
    intro h
    rw [h] at hk
    cases hk
  refine ⟨?_, nofun, fun _ => ⟨out ++ new, t, (List.append_assoc ..).symm, hk⟩⟩
  rw [LineTracker.step_real _ hk]
  simp [LineTracker.behind, hn]

theorem Tracks.next {s s' : Stage} {p : Piece} (h : Tracks s) (hn : Next s p s') : Tracks s' := by
  cases hn with
  | skipped => exact ⟨h.tracker, h.blank, h.written⟩
  | blank _ _ ho => exact ⟨h.tracker, fun _ => ho, h.written⟩
  | dropped _ hk hd =>
    have ho : s.tracker.opening = true := by
      rcases Bool.or_eq_true_iff.1 hd with hb | ho
      · exact h.blank hb
      · exact ho
    rw [LineTracker.step_newline _ hk]
    refine ⟨?_, fun _ => rfl, nofun⟩
    have hw : s.tracker.wait ≠ .atLineEnd := by
      rw [h.tracker] at ho ⊢
      exact LineTracker.behind_opening ho
    rw [if_neg hw, ← h.tracker, ← ho]
  | @lineEnd t _ hk _ ho =>
    have hb : (s.tracker.step t).2 = .behind (t :: s.out.reverse) := by
      rw [h.tracker] at ho ⊢
      exact LineTracker.step_behind hk ho
    refine ⟨by simpa using hb, nofun, ?_⟩
    rw [LineTracker.step_newline _ hk]
    nofun
  | opens _ hk => exact tracks_real hk _ _ s.out [_]
  | stays _ hk => exact tracks_real hk _ _ s.out []
  | closes _ hk => exact tracks_real hk _ _ s.out _

/-- A block is due where a word that asks for one ends its line. -/
theorem Tracks.wait_iff {s : Stage} (h : Tracks s) : s.tracker.wait = .now ↔ EndsAsking s.out := by
  rw [h.tracker]
  exact LineTracker.wait_behind s.out

end Stage

/-- The tracker of lines knows what the last tokens say. -/
theorem Reached.tracks {line : Nat} {text : List Char} {ps : List Piece} {s : Stage}
    (h : Reached line text ps s) : s.Tracks :=
  h.keeps (I := fun _ s => s.Tracks) ⟨rfl, nofun, nofun⟩ fun _ _ hs ht => ht.next hs

/-! ## Where a kind of token stands -/

/-- Every token of some kinds stands between tokens that pass a test. -/
def Placed (K : TokenKind → Prop) (P : List Token → Token → List Token → Prop) (ts : List Token) : Prop :=
  ∀ pre t post, ts = pre ++ t :: post → K t.kind → P pre t post

section

variable {K : TokenKind → Prop} {P : List Token → Token → List Token → Prop} {out new : List Token}

theorem Placed.nil : Placed K P [] := by
  intro pre t post he
  cases pre <;> cases he

variable (hm : ∀ pre t post more, P pre t post → P pre t (post ++ more))

include hm

theorem Placed.append (h : Placed K P out)
    (hn : ∀ pre t post, new = pre ++ t :: post → K t.kind → P (out ++ pre) t post) : Placed K P (out ++ new) := by
  intro pre t post he hk
  -- The token is one of the old ones or one of the new ones.
  rcases List.append_eq_append_iff.1 he with ⟨mid, rfl, hnew⟩ | ⟨mid, hout, hpost⟩
  · exact hn mid t post hnew hk
  · cases mid with
    | nil =>
      rw [List.append_nil] at hout
      subst hout
      have hp := hn [] t post hpost.symm hk
      rwa [List.append_nil] at hp
    | cons u mid =>
      cases hpost
      exact hm _ _ _ _ (h pre t mid hout hk)

theorem Placed.append_others (h : Placed K P out) (hn : ∀ t ∈ new, ¬K t.kind) : Placed K P (out ++ new) :=
  h.append hm fun pre t post he hk => absurd hk (hn t (by simp [he]))

/-- Of the new tokens, only the last one may be of the kinds. -/
theorem Placed.append_last (h : Placed K P out) (new : List Token) {t : Token} (hn : ∀ u ∈ new, ¬K u.kind)
    (ht : K t.kind → P (out ++ new) t []) : Placed K P (out ++ (new ++ [t])) := by
  rw [← List.append_assoc]
  refine (h.append_others hm hn).append hm fun pre u post he hk => ?_
  cases pre with
  | nil =>
    cases he
    rw [List.append_nil]
    exact ht hk
  | cons v pre => cases pre <;> cases he

end

/-- No kind that is written in a line is one of the others. -/
theorem TokenKind.isReal_ne {k l : TokenKind} (hk : k.isReal = true) (hl : l.isReal = false) : k ≠ l := by
  rintro rfl
  rw [hk] at hl
  cases hl

theorem Indenter.kind_dedents {n line : Nat} {t : Token} (h : t ∈ dedents n line) : t.kind = .dedent := by
  rw [dedents] at h
  rw [List.eq_of_mem_replicate h]
  rfl

/-- A line ends only right behind a token that is written in it. -/
def LinesWritten : List Token → Prop :=
  Placed (· = .newline) fun pre _ _ => EndsReal pre

theorem Stage.Next.linesWritten {s s' : Stage} {p : Piece} (hn : Next s p s') (ht : s.Tracks)
    (h : LinesWritten s.out) : LinesWritten s'.out := by
  have hm : ∀ (pre : List Token) (_ : Token) (_ _ : List Token), EndsReal pre → EndsReal pre := fun _ _ _ _ hp => hp
  cases hn with
  | skipped | blank | dropped => exact h
  | lineEnd _ _ _ ho => exact Placed.append_last hm h [] nofun fun _ => by simpa using ht.written ho
  | opens _ hk =>
    refine Placed.append_last hm h [_] ?_ fun hl => absurd hl (TokenKind.isReal_ne hk rfl)
    exact List.forall_mem_singleton.2 nofun
  | stays _ hk => exact Placed.append_last hm h [] nofun fun hl => absurd hl (TokenKind.isReal_ne hk rfl)
  | closes _ hk =>
    refine Placed.append_last hm h _ (fun u hu => ?_) fun hl => absurd hl (TokenKind.isReal_ne hk rfl)
    rw [Indenter.kind_dedents hu]
    nofun

/-- What every step keeps about the place of some kinds of token holds in the tokens of a text. -/
theorem placed_tokens {K : TokenKind → Prop} {P : List Token → Token → List Token → Prop} (hd : ¬K .dedent)
    (he : ¬K .endMarker) (hm : ∀ pre t post more, P pre t post → P pre t (post ++ more)) {line : Nat} {text : List Char}
    (hn : ∀ {ps p s s'}, Reached line text ps s → Reached line text (ps ++ [p]) s' → s.Next p s' →
      Placed K P s.out → Placed K P s'.out) (mark : Bool) : Placed K P (tokens line mark text) := by
  obtain ⟨ps, s, hs, ht⟩ := tokens_ends line mark text
  have hp : Placed K P s.out := hs.keeps (I := fun _ s => Placed K P s.out) Placed.nil hn
  rcases ht with ⟨-, ht⟩ | ⟨-, n, m, ht⟩
  · rw [ht]
    exact hp
  · rw [ht, List.append_assoc]
    refine hp.append_others hm fun u hu => ?_
    rcases List.mem_append.1 hu with hu | hu
    · rwa [Indenter.kind_dedents hu]
    · split at hu
      · rwa [List.mem_singleton.1 hu]
      · cases hu

/-- In the tokens of a text, a line ends only right behind a token that is written in it: no line end comes first,
and no two of them stand side by side. -/
theorem linesWritten_tokens (line : Nat) (mark : Bool) (text : List Char) : LinesWritten (tokens line mark text) :=
  placed_tokens (K := (· = .newline)) nofun nofun (fun _ _ _ _ h => h) (fun h _ hn => hn.linesWritten h.tracks) mark

end Pseudocode
