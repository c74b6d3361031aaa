import Pseudocode.Proofs.Pending
import Pseudocode.Proofs.ReaderBehind
import Pseudocode.Tree.Parser

/-!
# What a lexer keeps of its past

Of all that a lexer did before it is given a text, only the line that it has come to matters. The layout looks at the
kinds of tokens and at the widths of blanks, so a change that leaves these goes through it (`Indenter.step_map`), and
moving tokens down is one. A text that begins some lines further down is scanned, tracked and laid out like the same
text at its old place, with every token that many lines further down (`tokenize_down`). One token is the exception:
where a text has no other token, its end marker stands on the first line, wherever the text begins. So a lexer that was
used before hands out the tokens of a new lexer, and then the fault of a new lexer, with these lines
(`Lexer.input_line`, `Lexer.pulls_down`).

A parser reads a text while it pulls its tokens. Reading does not look at lines, so a parser that was used before reads
what a new one reads (`Parser.parse_unplaced`). `Parser.pulls_after` says both of a lexer and parser after any calls.
-/

namespace Pseudocode

/-! ## Changes that the layout does not see -/

/-- A change of tokens that leaves their kinds and the widths of blanks, and moves the tokens of the layout along with
the token that they stand before. -/
structure Token.Keeps (f : Token → Token) : Prop where
  kind : ∀ t, (f t).kind = t.kind
  width : ∀ t, t.kind = .blank → Indenter.width (f t) = Indenter.width t
  layout : ∀ kind t, f (.ofLayout kind t.line) = .ofLayout kind (f t).line

/-- A tracked token that is changed. -/
def Tracked.map (f : Token → Token) (t : Tracked) : Tracked :=
  { t with token := f t.token }

section

variable {f : Token → Token} (hf : Token.Keeps f)

include hf

theorem LineTracker.step_map (l : LineTracker) (t : Token) : l.step (f t) = ((l.step t).1.map f, (l.step t).2) := by
  unfold step
  rw [hf.kind]
  cases t.kind <;> rfl

theorem Indenter.real_map (d : Indenter) (t : Tracked) :
    d.real (t.map f) = (d.real t).map (Prod.map (List.map f) id) := by
  have hd : ∀ n, (dedents n t.token.line).map f = dedents n (f t.token).line := fun n => by
    rw [dedents, List.map_replicate, hf.layout, dedents]
  unfold real
  rw [show (t.map f).opening = t.opening from rfl, show (t.map f).opensBlock = t.opensBlock from rfl,
    show (t.map f).token = f t.token from rfl]
  repeat' split
  all_goals first
    | rfl
    | simp [Except.map, hd, hf.layout]

/-- The layout of changed tokens is the changed layout. -/
theorem Indenter.step_map (d : Indenter) (t : Tracked) :
    d.step (t.map f) = (d.step t).map (Prod.map (List.map f) id) := by
  have hk : (t.map f).token.kind = t.token.kind := hf.kind _
  cases h : t.token.kind with
  | blank =>
    rw [step_blank d h, step_blank d (hk.trans h), show (t.map f).token = f t.token from rfl, hf.width _ h]
    split <;> rfl
  | newline =>
    rw [step_newline d h, step_newline d (hk.trans h), show (t.map f).opening = t.opening from rfl]
    split <;> rfl
  | _ =>
    simp only [step, hk, h]
    exact real_map hf d t

end

/-! ## Places further down -/

/-- The same token `n` lines further down. -/
def Token.down (n : Nat) (t : Token) : Token :=
  { t with line := n + t.line }

def Tracked.down (n : Nat) (t : Tracked) : Tracked :=
  { t with token := t.token.down n }

def Scanner.down (n : Nat) (s : Scanner) : Scanner :=
  { s with line := n + s.line }

/-- A stream `n` lines further down, where `f` says what becomes of its items. -/
def Stream.down {α : Type} (f : α → α) (n : Nat) (s : Stream (α × Scanner)) : Stream (α × Scanner) :=
  ⟨s.items.map (Prod.map f (Scanner.down n)), s.fault, s.last.down n⟩

theorem Token.keeps_down (n : Nat) : Keeps (down n) :=
  ⟨fun _ => rfl, fun _ _ => rfl, fun _ _ => rfl⟩

@[simp]
theorem Token.content_down (n : Nat) (t : Token) : (t.down n).content = t.content :=
  rfl

section

variable (n : Nat)

theorem Scanner.after_down (s : Scanner) (p : Piece) : (s.down n).after p = (s.after p).down n := by
  simp only [after, down]
  split
  · rw [Nat.add_assoc]
  · rfl

theorem Scanner.token?_down (s : Scanner) (opening : Bool) (p : Piece) :
    (s.down n).token? opening p = (s.token? opening p).map (Option.map (Token.down n)) := by
  simp only [token?, down]
  cases p.tokenKind? opening (s.parens != 0) with
  | none => rfl
  | some kind => cases p.payload <;> rfl

theorem LineTracker.step_down (l : LineTracker) (t : Token) :
    l.step (t.down n) = ((l.step t).1.down n, (l.step t).2) :=
  l.step_map (Token.keeps_down n) t

theorem track_down (s : Scanner) (l : LineTracker) (left : List Char) (ps : List Piece) :
    track (s.down n) l left ps = (track s l left ps).down (Tracked.down n) n := by
  induction ps generalizing s l with
  | nil => rfl
  | cons p ps ih =>
    simp only [track, Scanner.token?_down, Scanner.after_down]
    cases s.token? l.opening p with
    | error f => rfl
    | ok made =>
      cases made with
      | none => exact ih _ _
      | some t =>
        simp only [Except.map, Option.map_some, LineTracker.step_down, ih]
        rfl

theorem Indenter.map_dedents (k line : Nat) : (dedents k line).map (Token.down n) = dedents k (n + line) := by
  simp [dedents, Token.down, Token.ofLayout]

theorem Indenter.step_down (d : Indenter) (t : Tracked) :
    d.step (t.down n) = (d.step t).map (Prod.map (List.map (Token.down n)) id) :=
  d.step_map (Token.keeps_down n) t

/-- The line of the last of some tokens, or else an earlier one. -/
theorem lineOf_down (out : List Token) (put : Option Nat) :
    (((out.map (Token.down n)).getLast?).map Token.line).or (put.map (n + ·)) =
      ((out.getLast?.map Token.line).or put).map (n + ·) := by
  rw [List.getLast?_map]
  cases out.getLast? <;> rfl

/-- Behind a first token, all tokens go down alike. -/
theorem layOut_down (mark : Bool) (fault : Option ReadFault) (last : Scanner) (d : Indenter) (seen put : Nat)
    (items : List (Tracked × Scanner)) :
    layOut mark fault (last.down n) d (some (n + seen)) (some (n + put))
        (items.map (Prod.map (Tracked.down n) (Scanner.down n))) =
      (layOut mark fault last d (some seen) (some put) items).down (Token.down n) n := by
  induction items generalizing d seen put with
  | nil =>
    cases fault with
    | some f => rfl
    | none =>
      have hc : d.finish (n + seen) = (d.finish seen).map (Token.down n) := (Indenter.map_dedents ..).symm
      have hl := lineOf_down n (d.finish seen) (some put)
      rw [Option.map_some] at hl
      simp only [List.map_nil, layOut, Option.getD_some, hc, hl]
      cases mark with
      | false => simp [Stream.down]
      | true =>
        cases h : ((d.finish seen).getLast?.map Token.line).or (some put) with
        | none => simp at h
        | some line => simp [Stream.down, endMarker, Token.ofLayout, Token.down]
  | cons x items ih =>
    obtain ⟨t, s⟩ := x
    simp only [List.map_cons, Prod.map_apply, layOut, Indenter.step_down]
    cases d.step t with
    | error f => rfl
    | ok made =>
      obtain ⟨out, d'⟩ := made
      have hl := lineOf_down n out (some put)
      rw [Option.map_some] at hl
      dsimp only [Except.map, Prod.map_apply, id]
      rw [hl]
      cases h : (out.getLast?.map Token.line).or (some put) with
      | none => simp at h
      | some line =>
        have hi := ih d' t.token.line line
        rw [show (t.down n).token.line = n + t.token.line from rfl, Option.map_some, hi]
        simp [Stream.down]

end

/-- A token that gives out nothing leaves the blocks as they are. -/
theorem Indenter.step_quiet {d d' : Indenter} {t : Tracked} (h : d.step t = .ok ([], d')) : d'.levels = d.levels := by
  unfold step at h
  split at h
  case h_1 =>
    split at h <;> cases h
    rfl
  case h_2 => rw [← (Prod.mk.inj (Except.ok.inj h)).2]
  case h_3 =>
    unfold real at h
    repeat' split at h
    all_goals simp at h

/-- What becomes of the tokens of a text that begins `n` lines further down: each goes down as far, but an end marker
without other tokens stays on the first line. -/
def descent (n : Nat) (ts : List Token) : Token → Token :=
  if ts = [endMarker none] then id else Token.down n

theorem descent_cons (n : Nat) {t : Token} (h : t.kind ≠ .endMarker) (ts : List Token) :
    descent n (t :: ts) = Token.down n := by
  refine if_neg fun he => h ?_
  rw [(List.cons.inj he).1]
  rfl

@[simp]
theorem content_descent (n : Nat) (ts : List Token) (t : Token) : (descent n ts t).content = t.content := by
  unfold descent
  split <;> rfl

theorem layOut_descent (n : Nat) (mark : Bool) (fault : Option ReadFault) (last : Scanner) {d : Indenter}
    (hd : d.levels.length ≤ 1) (seen : Option Nat) {items : List (Tracked × Scanner)}
    (hk : ∀ x ∈ items, x.1.token.kind ≠ .endMarker) :
    layOut mark fault (last.down n) d (seen.map (n + ·)) none (items.map (Prod.map (Tracked.down n) (Scanner.down n))) =
      (layOut mark fault last d seen none items).down
        (descent n ((layOut mark fault last d seen none items).items.map Prod.fst)) n := by
  induction items generalizing d seen with
  | nil =>
    cases fault with
    | some f => rfl
    | none =>
      have hc : ∀ line, d.finish line = [] := fun line => by
        rw [Indenter.finish, Nat.sub_eq_zero_of_le hd]
        rfl
      simp only [List.map_nil, layOut, hc]
      cases mark with
      | false => rfl
      | true => simp [Stream.down, descent]
  | cons x items ih =>
    obtain ⟨t, s⟩ := x
    simp only [List.map_cons, Prod.map_apply, layOut, Indenter.step_down]
    cases h : d.step t with
    | error f => rfl
    | ok made =>
      obtain ⟨out, d'⟩ := made
      dsimp only [Except.map, Prod.map_apply, id]
      cases out with
      | nil =>
        have hq : d'.levels.length ≤ 1 := by rwa [Indenter.step_quiet h]
        exact ih hq (some t.token.line) fun x hx => hk x (List.mem_cons_of_mem _ hx)
      | cons u out =>
        have hu : u.kind ≠ .endMarker :=
          Indenter.step_forall (Q := (·.kind ≠ .endMarker)) (by simp [Token.ofLayout]) (by simp [Token.ofLayout]) h
            (hk _ List.mem_cons_self) u List.mem_cons_self
        have hl := lineOf_down n (u :: out) none
        rw [Option.map_none] at hl
        rw [hl]
        cases hp : ((u :: out).getLast?.map Token.line).or none with
        | none => simp at hp
        | some line =>
          rw [show (t.down n).token.line = n + t.token.line from rfl, Option.map_some, layOut_down]
          simp [Stream.down, descent_cons n hu]

/-- A text further down has the same tokens and the same fault. -/
theorem tokenize_down (n line : Nat) (mark : Bool) (text : List Char) :
    tokenize (n + line) mark text = (tokenize line mark text).down (descent n (tokens line mark text)) n := by
  have ht : trackText (n + line) text = (trackText line text).down (Tracked.down n) n :=
    track_down n (Scanner.start line) ..
  have hk : ∀ x ∈ (trackText line text).items, x.1.token.kind ≠ .endMarker := by
    refine track_forall (Q := (·.kind ≠ .endMarker)) _ (fun p _ s opening t hm => ?_) _ _
    rcases Piece.tokenKind?_cases (Scanner.token?_some hm).1 with ⟨-, hk, -⟩ | ⟨-, hk, -⟩ | ⟨-, hk⟩
    · simp [hk]
    · simp [hk]
    · exact TokenKind.isReal_ne hk rfl
  unfold tokens tokenize
  rw [ht]
  exact layOut_descent n mark _ _ (d := Indenter.start) (Nat.le_refl 1) none hk

theorem tokens_down (n line : Nat) (mark : Bool) (text : List Char) :
    tokens (n + line) mark text = (tokens line mark text).map (descent n (tokens line mark text)) := by
  rw [tokens, tokenize_down, Stream.down, List.map_map, tokens, List.map_map]
  rfl

/-- The tokens of a text, by those that it would have at the top. -/
theorem tokens_descent (line : Nat) (mark : Bool) (text : List Char) :
    tokens line mark text = (tokens 0 mark text).map (descent line (tokens 0 mark text)) ∧
      (tokenize line mark text).fault = (tokenize 0 mark text).fault := by
  have ht := tokenize_down line 0 mark text
  rw [Nat.add_zero] at ht
  refine ⟨tokens_down line 0 mark text, ?_⟩
  rw [ht]
  rfl

/-! ## Reading while tokens are pulled -/

theorem Parser.line_readOn (p : Parser) (r : Reader) : p.lexer.line ≤ (p.readOn r).2.lexer.line := by
  have hp : ∀ {l m : Lexer} {a}, l.pull = (a, m) → l.line ≤ m.line := fun {l m a} h => by
    have hl := l.line_pull
    rwa [h] at hl
  fun_induction readOn p r with
  | case1 p r t l hl _ => exact hp hl
  | case2 p r t l hl _ _ _ ih => exact Nat.le_trans (hp hl) ih
  | case3 p r f l hl => exact hp hl
  | case4 p r a l _ _ hl _ _ => exact hp hl
  | case5 p r a l _ _ hl _ => exact hp hl

/-- What a reader comes to that has taken all tokens of a text. -/
def Reader.outcome (fault : Option ReadFault) (r : Reader) : Except ReadFault (List Tree) :=
  match fault with
  | some f => .error f
  | none =>
    match r.program? with
    | some program => .ok program
    | none => .error (.unexpected (endMarker none))

theorem readProgram_eq (source : String) :
    readProgram source =
      Reader.start.feedAll (tokens 1 true source.toList) >>= Reader.outcome (tokenize 1 true source.toList).fault := by
  unfold readProgram
  dsimp only
  split
  case h_1 h =>
    rw [h]
    rfl
  case h_2 h =>
    rw [h]
    rfl

namespace Parser

theorem readOn_pull (p : Parser) (r : Reader) :
    p.readOn r =
      match p.lexer.pull with
      | (.token t, l) =>
        match r.feed t with
        | none => (.error (.unexpected t), { p with lexer := l })
        | some r => readOn ⟨l, r.soFar p.latest⟩ r
      | (.fault f, l) => (.error f, { p with lexer := l })
      | (_, l) => (r.outcome none, { p with lexer := l }) := by
  rw [readOn]
  split
  case h_1 t l h =>
    cases hf : r.feed t <;> simp only [h, hf]
  case h_2 h => rw [h]
  case h_3 answer l ht hf h =>
    rw [h]
    cases answer with
    | token t => exact (ht t rfl).elim
    | fault f => exact (hf f rfl).elim
    | noText | finished =>
      dsimp only [Reader.outcome]
      cases r.program? <;> rfl

/-- Pulling the tokens of a text one by one comes to the same as having them all. -/
theorem readOn_eq {p : Parser} {stream : Stream (Token × Scanner)} (h : p.lexer.pending = some stream) (r : Reader) :
    (p.readOn r).1 = r.feedAll (stream.items.map Prod.fst) >>= Reader.outcome stream.fault := by
  obtain ⟨items, fault, last⟩ := stream
  induction items generalizing p r with
  | nil =>
    have hg := Lexer.gives_pull h
    rw [readOn_pull]
    generalize p.lexer.pull = answer at hg ⊢
    obtain ⟨answer, l⟩ := answer
    cases fault <;> obtain ⟨rfl, -⟩ := hg <;> rfl
  | cons x items ih =>
    have hg := Lexer.gives_pull h
    rw [readOn_pull, List.map_cons, Reader.feedAll]
    generalize p.lexer.pull = answer at hg ⊢
    obtain ⟨answer, l⟩ := answer
    obtain ⟨rfl, -, hl⟩ := hg
    dsimp only
    cases r.feed x.1 with
    | none => rfl
    | some r' => exact ih r' hl

/-- The parser holds the program that it has read. -/
theorem readOn_latest {p : Parser} {r : Reader} {before program : List Tree} (hb : p.latest = r.soFar before)
    (hn : program ≠ []) (h : (p.readOn r).1 = .ok program) : (p.readOn r).2.latest = program := by
  fun_induction readOn p r generalizing before with
  | case1 p r t l hl _ => cases h
  | case2 p r t l hl _ _ _ ih => exact ih rfl h
  | case3 p r f l hl => cases h
  | case4 p r a l _ _ hl program' hp =>
    cases h
    obtain ⟨done, rfl, rfl⟩ := Reader.program?_eq_some hp
    rw [hb]
    cases done with
    | nil => exact absurd rfl hn
    | cons t done => rfl
  | case5 p r a l _ _ hl _ => cases h

end Parser

/-! ## What a reader sees of the lines -/

/-- A fault wherever the line of its token is. -/
def ReadFault.unplaced : ReadFault → ReadFault
  | .unexpected t => .unexpected { t with line := 0 }
  | f => f

theorem ReadFault.unplaced_reports (f : ReadFault) :
    f.unplaced.message = f.message ∧ f.unplaced.notice = f.notice := by
  cases f <;> exact ⟨rfl, rfl⟩

theorem unexpected_descent (n : Nat) (ts : List Token) (t : Token) :
    (ReadFault.unexpected (descent n ts t)).unplaced = (ReadFault.unexpected t).unplaced := by
  unfold descent
  split <;> rfl

theorem Reader.feedAll_descent (n : Nat) (us : List Token) (r : Reader) (ts : List Token) :
    (r.feedAll (ts.map (descent n us))).mapError ReadFault.unplaced = (r.feedAll ts).mapError ReadFault.unplaced := by
  induction ts generalizing r with
  | nil => rfl
  | cons t ts ih =>
    rw [List.map_cons, feedAll, feedAll, r.feed_content (content_descent n us t)]
    cases r.feed t with
    | none => exact congrArg Except.error (unexpected_descent n us t)
    | some r => exact ih r

/-- Where two readings come to the same up to lines, so does what is done behind them. -/
theorem mapError_bind {α β : Type} {x y : Except ReadFault α}
    (h : x.mapError ReadFault.unplaced = y.mapError ReadFault.unplaced) (g : α → Except ReadFault β) :
    (x >>= g).mapError ReadFault.unplaced = (y >>= g).mapError ReadFault.unplaced := by
  cases x with
  | error e =>
    cases y with
    | error e' => exact congrArg Except.error (Except.error.inj h)
    | ok b => cases h
  | ok a =>
    cases y with
    | error e' => cases h
    | ok b =>
      cases h
      rfl

/-- The tokens of a text are read alike wherever it begins. -/
theorem feedAll_tokens (line : Nat) (text : List Char) :
    (Reader.start.feedAll (tokens line true text) >>= Reader.outcome (tokenize line true text).fault).mapError
        ReadFault.unplaced =
      (Reader.start.feedAll (tokens 0 true text) >>= Reader.outcome (tokenize 0 true text).fault).mapError
        ReadFault.unplaced := by
  obtain ⟨hs, hf⟩ := tokens_descent line true text
  rw [hf, hs]
  exact mapError_bind (Reader.feedAll_descent ..) _

namespace Parser

theorem parse_eq (p : Parser) (source : String) :
    (p.parse source).1 = Reader.start.feedAll (tokens p.lexer.line true source.toList) >>=
      Reader.outcome (tokenize p.lexer.line true source.toList).fault :=
  readOn_eq (Lexer.pending_input ..) Reader.start

/-- A new parser reads the program of a text. -/
theorem parse_fresh (source : String) : (fresh.parse source).1 = readProgram source := by
  rw [parse_eq, readProgram_eq]
  rfl

/-- So does one that was used before, but for the line of a token that continues no program. -/
theorem parse_unplaced (p : Parser) (source : String) :
    (p.parse source).1.mapError ReadFault.unplaced = (readProgram source).mapError ReadFault.unplaced := by
  rw [parse_eq, readProgram_eq]
  exact (feedAll_tokens _ _).trans (feedAll_tokens 1 _).symm

/-! ## Calls -/

theorem line_apply (p : Parser) (call : Call) : p.lexer.line ≤ (call.apply p).lexer.line := by
  cases call with
  | input mark text => exact Nat.le_refl _
  | pull => exact p.lexer.line_pull
  | parse source => exact line_readOn { p with lexer := p.lexer.input true source.toList } _

theorem line_after (p : Parser) (calls : List Call) : p.lexer.line ≤ (p.after calls).lexer.line := by
  induction calls generalizing p with
  | nil => exact Nat.le_refl _
  | cons call calls ih => exact Nat.le_trans (p.line_apply call) (ih _)

/-- After any calls, a lexer that is given a text hands out the tokens and the fault of a new lexer, as many lines
further down as it has come; only an end marker without other tokens stays on the first line. And a parser reads the
program that a new one reads, or finds the same fault. -/
theorem pulls_after (calls : List Call) (mark : Bool) (text : List Char) (k : Nat) (source : String) :
    ∃ n, (fresh.after calls).lexer.line = n + 1 ∧
      (((fresh.after calls).lexer.input mark text).pulls k).1 =
        ((Lexer.fresh.input mark text).pulls k).1.map (Pulled.map (descent n (tokens 1 mark text))) ∧
      (fresh.parse source).1 = readProgram source ∧
      ((fresh.after calls).parse source).1.mapError ReadFault.unplaced =
        (fresh.parse source).1.mapError ReadFault.unplaced := by
  obtain ⟨n, hn⟩ := Nat.exists_eq_add_of_le' (fresh.line_after calls)
  refine ⟨n, hn, ?_, parse_fresh source, ?_⟩
  · rw [Lexer.pulls_input, Lexer.pulls_input, hn, tokenize_down, tokens_down, Pulled.answers_map]
    rfl
  · rw [parse_unplaced, parse_fresh]

end Parser

end Pseudocode
