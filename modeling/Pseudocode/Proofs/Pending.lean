import Pseudocode.Proofs.JoinedPieces
import Pseudocode.Token.Lexer

/-!
# What a lexer has still to hand out

A lexer scans a text piece by piece, as its tokens are asked for, while `tokenize` goes over the whole text at once.
From what a lexer keeps between two tokens follows the stream of all that it will still hand out (`Lexer.pending`). A
token that is pulled is the first of that stream and leaves the rest of it (`Lexer.gives_pull`), so whatever is pulled
is read off the stream (`Lexer.pulls_eq`). A lexer that is given a text has the stream of the text before it, whatever
it did until then (`Lexer.pending_input`).
-/

namespace Pseudocode

/-- What is tracked in the rest of a text. -/
def trackRest (s : Scanner) (t : LineTracker) (rest : List Char) : Stream (Tracked × Scanner) :=
  track s t (Piece.cut rest).2 (Piece.cut rest).1

theorem trackRest_nil (s : Scanner) (t : LineTracker) : trackRest s t [] = ⟨[], none, s⟩ := by
  rw [trackRest, Piece.cut_of_none rfl]
  rfl

theorem trackRest_unknown (s : Scanner) (t : LineTracker) {c : Char} {cs : List Char}
    (h : Piece.first? (c :: cs) = none) : trackRest s t (c :: cs) = ⟨[], some (.unknownSymbol c), s⟩ := by
  rw [trackRest, Piece.cut_of_none h]
  rfl

theorem trackRest_piece (s : Scanner) (t : LineTracker) {cs rest : List Char} {p : Piece}
    (h : Piece.first? cs = some (p, rest)) :
    trackRest s t cs =
      match s.token? t.opening p with
      | .error f => ⟨[], some f, s.after p⟩
      | .ok none => trackRest (s.after p) t rest
      | .ok (some u) => .cons ((t.step u).1, s.after p) (trackRest (s.after p) (t.step u).2 rest) := by
  rw [trackRest, Piece.cut_of_first? h]
  rfl

namespace Lexer

/-- Scanning up to the next token is one step of tracking. -/
theorem scan_track {t : LineTracker} {l : Lexer} (h : l.opening = t.opening) :
    trackRest l.toScanner t l.rest =
      match l.scan with
      | (.error f, l') => ⟨[], some f, l'.toScanner⟩
      | (.ok none, l') => ⟨[], none, l'.toScanner⟩
      | (.ok (some u), l') => .cons ((t.step u).1, l'.toScanner) (trackRest l'.toScanner (t.step u).2 l'.rest) := by
  fun_induction scan l with
  | case1 l _ hr => rw [hr, trackRest_nil]
  | case2 l hf c cs hr =>
    rw [hr] at hf
    rw [hr, trackRest_unknown _ _ hf]
  | case3 l p rest hf _ f hm =>
    rw [h] at hm
    rw [trackRest_piece _ _ hf, hm]
    rfl
  | case4 l p rest hf _ u hm =>
    rw [h] at hm
    rw [trackRest_piece _ _ hf, hm]
    rfl
  | case5 l p rest hf _ hm ih =>
    rw [h] at hm
    simp only [trackRest_piece _ _ hf, hm]
    exact ih h

end Lexer

/-- What comes of a text from where its tokens were made so far. -/
def Progress.stream (p : Progress) (s : Scanner) (rest : List Char) : Stream (Token × Scanner) :=
  let tracked := trackRest s p.tracker rest
  let more := layOut p.mark tracked.fault tracked.last p.indenter p.seen ((p.waiting.getLast?.map Token.line).or p.put)
    tracked.items
  ⟨p.waiting.map (·, s) ++ more.items, more.fault, more.last⟩

namespace Progress

theorem stream_waiting {p : Progress} {t : Token} {more : List Token} (hw : p.waiting = t :: more) (s : Scanner)
    (rest : List Char) :
    p.stream s rest = .cons (t, s) ({ p with put := some t.line, waiting := more }.stream s rest) := by
  have hl : ((t :: more).getLast?.map Token.line).or p.put = (more.getLast?.map Token.line).or (some t.line) := by
    cases more with
    | nil => rfl
    | cons u more =>
      rw [List.getLast?_cons_cons, List.getLast?_cons]
      rfl
  rw [stream, hw, hl]
  rfl

/-- If no token waits, the stream begins with what is scanned next. -/
theorem stream_scan {p : Progress} (hw : p.waiting = []) (l : Lexer) :
    p.stream l.toScanner l.rest =
      match { l with opening := p.tracker.opening }.scan with
      | (.error f, m) => ⟨[], some f, m.toScanner⟩
      | (.ok none, m) => ⟨p.closing.map (·, m.toScanner), none, m.toScanner⟩
      | (.ok (some t), m) =>
        match p.indenter.step (p.tracker.step t).1 with
        | .error f => ⟨[], some f, m.toScanner⟩
        | .ok (waiting, indenter) =>
          { p with tracker := (p.tracker.step t).2, indenter, seen := some t.line, waiting }.stream m.toScanner
            m.rest := by
  have ht : trackRest l.toScanner p.tracker l.rest = _ := Lexer.scan_track (l := { l with opening := p.tracker.opening }) rfl
  rw [stream, hw, ht]
  generalize { l with opening := p.tracker.opening }.scan = r
  obtain ⟨made, m⟩ := r
  cases made with
  | error f => rfl
  | ok made =>
    cases made with
    | none =>
      dsimp only [layOut, closing, List.map_nil, List.nil_append]
      cases p.mark <;> simp
    | some t =>
      dsimp only [Stream.cons, layOut]
      cases p.indenter.step (p.tracker.step t).1 with
      | error f => rfl
      | ok made => simp [stream, LineTracker.token_step]

end Progress

namespace Lexer

/-- All that a lexer has still to hand out, if it was given a text. -/
def pending (l : Lexer) : Option (Stream (Token × Scanner)) :=
  match l.phase with
  | .noText => none
  | .given mark => some ((Progress.start mark).stream l.toScanner l.rest)
  | .running p => some (p.stream l.toScanner l.rest)
  | .closing waiting => some ⟨waiting.map (·, l.toScanner), none, l.toScanner⟩

/-- Whatever a lexer did before, it has the stream of the text before it that it is given. -/
theorem pending_input (l : Lexer) (mark : Bool) (text : List Char) :
    (l.input mark text).pending = some (tokenize l.line mark text) :=
  rfl

/-- An answer is the next item of a stream, and leaves the rest of it. -/
def Gives (r : Pulled × Lexer) : Stream (Token × Scanner) → Prop
  | ⟨(t, s) :: rest, fault, last⟩ => r.1 = .token t ∧ r.2.toScanner = s ∧ r.2.pending = some ⟨rest, fault, last⟩
  | ⟨[], some f, last⟩ => r.1 = .fault f ∧ r.2.pending = some ⟨[], none, last⟩
  | ⟨[], none, last⟩ => r.1 = .finished ∧ r.2.pending = some ⟨[], none, last⟩

theorem gives_fail (l : Lexer) (f : ReadFault) : Gives (l.fail f) ⟨[], some f, l.toScanner⟩ :=
  ⟨rfl, rfl⟩

theorem gives_close (l : Lexer) (waiting : List Token) :
    Gives (l.close waiting) ⟨waiting.map (·, l.toScanner), none, l.toScanner⟩ := by
  cases waiting with
  | nil => exact ⟨rfl, rfl⟩
  | cons t more => exact ⟨rfl, rfl, rfl⟩

theorem gives_advance (l : Lexer) (p : Progress) : Gives (l.advance p) (p.stream l.toScanner l.rest) := by
  fun_induction advance l p with
  | case1 l p t more hw =>
    rw [Progress.stream_waiting hw]
    exact ⟨rfl, rfl, rfl⟩
  | case2 l p hw f m hs =>
    rw [Progress.stream_scan hw, hs]
    exact gives_fail m f
  | case3 l p hw m hs =>
    rw [Progress.stream_scan hw, hs]
    exact gives_close m p.closing
  | case4 l p hw t m hs _ tracked tracker ht f hf =>
    simp only [Progress.stream_scan hw, hs, ht, hf]
    exact gives_fail m f
  | case5 l p hw t m hs _ tracked tracker ht waiting indenter hi ih =>
    simp only [Progress.stream_scan hw, hs, ht, hi]
    exact ih

theorem gives_pull {l : Lexer} {stream : Stream (Token × Scanner)} (h : l.pending = some stream) :
    Gives l.pull stream := by
  unfold pending at h
  unfold pull
  cases hp : l.phase <;> rw [hp] at h <;> cases h
  · exact gives_advance ..
  · exact gives_advance ..
  · exact gives_close ..

end Lexer

/-! ## Pulling tokens one after the other -/

namespace Pulled

/-- An answer in which a token is changed. -/
def map (f : Token → Token) : Pulled → Pulled
  | .token t => .token (f t)
  | p => p

/-- What a lexer answers behind its last token. -/
def ending : Option ReadFault → Pulled
  | none => .finished
  | some f => .fault f

/-- The answers to a number of questions about tokens behind which there may be a fault. -/
def answers (fault : Option ReadFault) : List Token → Nat → List Pulled
  | _, 0 => []
  | t :: ts, k + 1 => .token t :: answers fault ts k
  | [], k + 1 =>
    match fault with
    | some f => [.fault f]
    | none => .finished :: answers none [] k

theorem answers_map (f : Token → Token) (fault : Option ReadFault) (ts : List Token) (k : Nat) :
    answers fault (ts.map f) k = (answers fault ts k).map (map f) := by
  induction k generalizing fault ts with
  | zero => cases ts <;> rfl
  | succ k ih =>
    cases ts with
    | cons t ts => exact congrArg (.token (f t) :: ·) (ih fault ts)
    | nil =>
      cases fault with
      | some f => rfl
      | none => exact congrArg (.finished :: ·) (ih none [])

/-- All tokens are handed out, and then the fault if there is one. -/
theorem answers_all (fault : Option ReadFault) (ts : List Token) :
    answers fault ts (ts.length + 1) = ts.map .token ++ [ending fault] := by
  induction ts with
  | nil => cases fault <;> rfl
  | cons t ts ih => exact congrArg (.token t :: ·) ih

end Pulled

namespace Lexer

/-- What is pulled from a lexer is read off the stream of what it has still to hand out. -/
theorem pulls_eq {l : Lexer} {stream : Stream (Token × Scanner)} (h : l.pending = some stream) (k : Nat) :
    (l.pulls k).1 = Pulled.answers stream.fault (stream.items.map Prod.fst) k := by
  induction k generalizing l stream with
  | zero => cases hi : stream.items.map Prod.fst <;> rfl
  | succ k ih =>
    obtain ⟨items, fault, last⟩ := stream
    have hg := gives_pull h
    rw [pulls]
    generalize l.pull = r at hg ⊢
    obtain ⟨answer, m⟩ := r
    cases items with
    | cons x items =>
      obtain ⟨rfl, -, hm⟩ := hg
      exact congrArg (.token x.1 :: ·) (ih hm)
    | nil =>
      cases fault with
      | some f =>
        obtain ⟨rfl, -⟩ := hg
        rfl
      | none =>
        obtain ⟨rfl, hm⟩ := hg
        exact congrArg (.finished :: ·) (ih hm)

theorem pulls_input (l : Lexer) (mark : Bool) (text : List Char) (k : Nat) :
    ((l.input mark text).pulls k).1 =
      Pulled.answers (tokenize l.line mark text).fault (tokens l.line mark text) k :=
  pulls_eq (pending_input l mark text) k

/-! ## Lines -/

theorem line_scan (l : Lexer) : l.line ≤ l.scan.2.line := by
  have ha : ∀ (s : Scanner) (p : Piece), s.line ≤ (s.after p).line := fun s p => by
    simp only [Scanner.after]
    split <;> omega
  fun_induction scan l with
  | case1 | case2 => exact Nat.le_refl _
  | case3 l p | case4 l p => exact ha l.toScanner p
  | case5 l p _ _ _ _ ih => exact Nat.le_trans (ha l.toScanner p) ih

theorem line_advance (l : Lexer) (p : Progress) : l.line ≤ (l.advance p).2.line := by
  have hm : ∀ {l m : Lexer} {opening : Bool} {made}, { l with opening }.scan = (made, m) → l.line ≤ m.line :=
    fun {l m opening made} h => by
      have hl := line_scan { l with opening }
      rwa [h] at hl
  fun_induction advance l p with
  | case1 => exact Nat.le_refl _
  | case2 l p _ f m hs =>
    have hl := hm hs
    exact hl
  | case3 l p _ m hs =>
    have hl := hm hs
    cases p.closing <;> exact hl
  | case4 l p _ t m hs =>
    have hl := hm hs
    exact hl
  | case5 l p _ t m hs _ _ _ _ _ _ _ ih => exact Nat.le_trans (hm hs) ih

/-- A lexer never goes back to an earlier line. -/
theorem line_pull (l : Lexer) : l.line ≤ l.pull.2.line := by
  unfold pull
  split
  case h_1 => exact Nat.le_refl _
  case h_2 => exact line_advance ..
  case h_3 => exact line_advance ..
  case h_4 waiting _ => cases waiting <;> exact Nat.le_refl _

end Lexer

end Pseudocode
