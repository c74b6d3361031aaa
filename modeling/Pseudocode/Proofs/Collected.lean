import Pseudocode.Proofs.LexerPast
import Pseudocode.Token.Kept

/-!
# Tokens that are collected first

A lexer scans a text while its tokens are pulled, and what it knows of the line decides which blanks it hands out. The
tokens can also be collected first, by a scanner that goes by the last token alone, and be tracked and laid out later.
Both scanners know the same of the line (`LineTracker.opening_step`), so they make the same tokens, and a tracker that
goes over the collected ones says of them what it says on the way (`track_eq_collect`). What is laid out of them does
not depend on where the scanner stands (`layOut_fst`).

Collected tokens may be kept and gone over again. Each pass notes on a token what its line says about it, over what an
earlier pass has noted (`Kept.pass`). A note is read only after it was written, so every pass comes to the same
(`Kept.pass_eq`, `Kept.passes_eq`). `Lexer.pulls_collected` compares them all with a lexer that is pulled to its end.
-/

namespace Pseudocode

/-! ## Scanning with and without a tracker -/

theorem LineTracker.opening_step (l : LineTracker) (t : Token) :
    (l.step t).2.opening = (t.kind == .newline || t.kind == .blank) := by
  unfold step
  cases t.kind <;> rfl

/-- A scanner with a tracker makes the tokens that it makes alone. -/
theorem track_eq_collect (s : Scanner) (l : LineTracker) (left : List Char) (ps : List Piece) :
    (track s l left ps).items.map Prod.fst = l.trackAll (collect s l.opening left ps).items ∧
      (track s l left ps).fault = (collect s l.opening left ps).fault := by
  induction ps generalizing s l with
  | nil => exact ⟨rfl, rfl⟩
  | cons p ps ih =>
    unfold track collect
    cases s.token? l.opening p with
    | error f => exact ⟨rfl, rfl⟩
    | ok made =>
      cases made with
      | none => exact ih _ l
      | some t =>
        obtain ⟨hi, hf⟩ := ih (s.after p) (l.step t).2
        rw [l.opening_step] at hi hf
        exact ⟨congrArg ((l.step t).1 :: ·) hi, hf⟩

/-- Blanks are collected only where a line opens. -/
theorem opening_of_blank (s : Scanner) (l : LineTracker) (left : List Char) (ps : List Piece) :
    ∀ t ∈ l.trackAll (collect s l.opening left ps).items, t.token.kind = .blank → t.opening = true := by
  induction ps generalizing s l with
  | nil => exact fun t ht => absurd ht List.not_mem_nil
  | cons p ps ih =>
    unfold collect
    cases hm : s.token? l.opening p with
    | error f => exact fun t ht => absurd ht List.not_mem_nil
    | ok made =>
      cases made with
      | none => exact ih _ l
      | some t =>
        intro u hu hk
        rcases List.mem_cons.1 hu with rfl | hu
        · rw [LineTracker.token_step] at hk
          rw [LineTracker.step_blank l hk]
          rcases Piece.tokenKind?_cases (Scanner.token?_some hm).1 with ⟨-, -, ho, -⟩ | ⟨-, hn, -⟩ | ⟨-, hr⟩
          · exact ho
          · cases hk.symm.trans hn
          · exact absurd hk (TokenKind.isReal_ne hr rfl)
        · rw [← l.opening_step] at hu
          exact ih _ _ u hu hk

/-- What is laid out does not depend on where the scanner stands. -/
theorem layOut_fst (mark : Bool) (fault : Option ReadFault) (last last' : Scanner) (d : Indenter)
    (seen put : Option Nat) {items items' : List (Tracked × Scanner)}
    (h : items'.map Prod.fst = items.map Prod.fst) :
    (layOut mark fault last' d seen put items').items.map Prod.fst =
        (layOut mark fault last d seen put items).items.map Prod.fst ∧
      (layOut mark fault last' d seen put items').fault = (layOut mark fault last d seen put items).fault := by
  induction items generalizing items' d seen put with
  | nil =>
    obtain rfl : items' = [] := by simpa using h
    cases fault <;> simp [layOut, Function.comp_def]
  | cons x items ih =>
    cases items' with
    | nil => cases h
    | cons x' items' =>
      obtain ⟨t, s⟩ := x
      obtain ⟨t', s'⟩ := x'
      obtain ⟨rfl, ht⟩ := List.cons.inj h
      unfold layOut
      cases d.step t' with
      | error f => exact ⟨rfl, rfl⟩
      | ok made =>
        obtain ⟨out, d'⟩ := made
        obtain ⟨hi, hf⟩ := ih d' (some t'.token.line) ((out.getLast?.map Token.line).or put) ht
        refine ⟨?_, hf⟩
        simp only [List.map_append, List.map_map, Function.comp_def]
        exact congrArg _ hi

theorem collectText_eq (line : Nat) (text : List Char) :
    collectText line text = collect (.start line) LineTracker.start.opening (Piece.cut text).2 (Piece.cut text).1 :=
  rfl

/-- The layout of collected tokens is that of the text. -/
theorem tokens_collected {line : Nat} {text : List Char} (h : (collectText line text).fault = none) :
    (layOutTokens (collectText line text).items).items.map Prod.fst = tokens line false text ∧
      (layOutTokens (collectText line text).items).fault = (tokenize line false text).fault := by
  obtain ⟨hi, hf⟩ := track_eq_collect (Scanner.start line) .start (Piece.cut text).2 (Piece.cut text).1
  rw [← collectText_eq] at hi hf
  have ht : (trackText line text).fault = none := hf.trans h
  unfold layOutTokens tokens tokenize
  dsimp only
  rw [ht]
  refine layOut_fst false none _ _ .start none none ?_
  rw [List.map_map, ← hi]
  exact List.map_id _

/-! ## Going over kept tokens -/

namespace Kept

theorem tracked_note (k : Kept) (l : LineTracker) : (k.note (l.step k.token).1).tracked = (l.step k.token).1 := by
  have ht := l.token_step k.token
  exact congrArg (Tracked.mk · (l.step k.token).1.opening (l.step k.token).1.opensBlock) ht.symm

/-- A pass keeps the tokens. -/
theorem token_pass (l : LineTracker) (d : Indenter) (seen : Option Nat) (kept : List Kept) :
    (pass l d seen kept).2.map Kept.token = kept.map Kept.token := by
  induction kept generalizing l d seen with
  | nil => rfl
  | cons k rest ih =>
    unfold pass
    dsimp only
    split
    · rfl
    · split
      · rfl
      · exact congrArg (k.token :: ·) (ih ..)

/-- Whatever was noted before, a pass lays out the tokens. -/
theorem pass_eq (s : Scanner) (l : LineTracker) (d : Indenter) (seen put : Option Nat) {kept : List Kept}
    (h : ∀ t ∈ l.trackAll (kept.map Kept.token), t.token.kind = .blank → t.opening = true) :
    (pass l d seen kept).1 =
      ((layOut false none s d seen put ((l.trackAll (kept.map Kept.token)).map (·, s))).items.map Prod.fst,
        (layOut false none s d seen put ((l.trackAll (kept.map Kept.token)).map (·, s))).fault) := by
  induction kept generalizing l d seen put with
  | nil => simp [pass, layOut, LineTracker.trackAll, Function.comp_def]
  | cons k rest ih =>
    have hk := h _ List.mem_cons_self
    rw [l.token_step] at hk
    have hs : (k.note (l.step k.token).1).strays = false := by
      rw [Kept.strays, Kept.tracked_note]
      by_cases hb : k.token.kind = .blank
      · rw [hk hb, Bool.not_true, Bool.and_false]
      · rw [show (k.note (l.step k.token).1).token = k.token from rfl, beq_false_of_ne hb, Bool.false_and]
    simp only [pass, hs, Kept.tracked_note, List.map_cons, LineTracker.trackAll, layOut, l.token_step,
      Bool.false_eq_true, if_false]
    cases d.step (l.step k.token).1 with
    | error f => rfl
    | ok made =>
      obtain ⟨out, d'⟩ := made
      have hi := ih (l.step k.token).2 d' (some k.token.line) ((out.getLast?.map Token.line).or put)
        fun t ht => h t (List.mem_cons_of_mem _ ht)
      simp [hi, Function.comp_def]

/-- Every pass over collected tokens comes to their layout. -/
theorem passes_eq (line : Nat) (text : List Char) (n : Nat) {kept : List Kept}
    (h : kept.map Kept.token = (collectText line text).items) :
    passes n kept = List.replicate n ((layOutTokens (collectText line text).items).items.map Prod.fst,
      (layOutTokens (collectText line text).items).fault) := by
  induction n generalizing kept with
  | zero => rfl
  | succ n ih =>
    have hb : ∀ t ∈ LineTracker.start.trackAll (kept.map Kept.token), t.token.kind = .blank → t.opening = true := by
      rw [h, collectText_eq]
      exact opening_of_blank (Scanner.start line) .start (Piece.cut text).2 (Piece.cut text).1
    have hp := pass_eq (.start 1) .start .start none none hb
    rw [h] at hp
    rw [passes, hp, ih ((token_pass ..).trans h)]
    rfl

end Kept

/-! ## Pulling to the end -/

/-- A token wherever it stands. -/
def Token.unplaced (t : Token) : Token :=
  ⟨t.kind, t.payload, 0, 0⟩

theorem Token.unplaced_descent (n : Nat) (ts : List Token) (t : Token) : (descent n ts t).unplaced = t.unplaced := by
  unfold descent
  split <;> rfl

/-- Where a text can be scanned to its end, its tokens may as well be collected first. Each of any number of passes over
the collected tokens, whatever is noted on them, gives out the tokens that any lexer hands out if it is given the text
without an end marker, up to their places, and ends with the same fault or with none. -/
theorem Lexer.pulls_collected (l : Lexer) {line : Nat} {text : List Char} (h : (collectText line text).fault = none) :
    let laid := layOutTokens (collectText line text).items
    (∀ (n : Nat) (kept : List Kept), kept.map Kept.token = (collectText line text).items →
        Kept.passes n kept = List.replicate n (laid.items.map Prod.fst, laid.fault)) ∧
      ((l.input false text).pulls (laid.items.length + 1)).1.map (Pulled.map Token.unplaced) =
        laid.items.map (fun x => Pulled.token x.1.unplaced) ++ [Pulled.ending laid.fault] := by
  intro laid
  refine ⟨fun n kept hk => Kept.passes_eq line text n hk, ?_⟩
  obtain ⟨ht, hf⟩ := tokens_collected h
  obtain ⟨ht₁, hf₁⟩ := tokens_descent line false text
  obtain ⟨htl, hfl⟩ := tokens_descent l.line false text
  have hu : (tokens l.line false text).map Token.unplaced = (laid.items.map Prod.fst).map Token.unplaced := by
    rw [ht, htl, ht₁, List.map_map, List.map_map]
    simp only [Function.comp_def, Token.unplaced_descent]
  have hlen : laid.items.length = (tokens l.line false text).length := by
    simpa using (congrArg List.length hu).symm
  have hfault : (tokenize l.line false text).fault = laid.fault := by
    rw [hfl, ← hf₁, ← hf]
  have hends : (Pulled.ending laid.fault).map Token.unplaced = Pulled.ending laid.fault := by
    cases laid.fault <;> rfl
  have htokens : ((tokens l.line false text).map Pulled.token).map (Pulled.map Token.unplaced) =
      laid.items.map (fun x => Pulled.token x.1.unplaced) := by
    have he := congrArg (List.map Pulled.token) hu
    simpa only [List.map_map, Function.comp_def, Pulled.map] using he
  rw [hlen, pulls_input, Pulled.answers_all, List.map_append, htokens, hfault, List.map_singleton, hends]

/-- A condition that goes over two lines, with the block below it, and a line that is indented like none before it. -/
def straggling : List Char :=
  "if (a ==\n b), then\n\n\t# x\n  c\n d".toList

/-- Tokens collected from that text, on which something else was noted before. -/
def misnoted : List Kept :=
  (collectText 1 straggling).items.map (Kept.mk · (some (false, true)))

/-- Both passes see the block, and the fault behind it. -/
theorem Lexer.pulls_collected_straggling :
    (collectText 1 straggling).fault = none ∧
      (Kept.passes 2 misnoted).map (fun r => (r.1.map Token.kind, r.2)) =
        List.replicate 2 ([.ifWord, .leftParen, .name, .comparison, .name, .rightParen, .comma, .thenWord, .newline,
          .indent, .name, .newline], some .unmatchedDepth) ∧
      ((fresh.input false straggling).pulls 13).1.map (Pulled.map Token.unplaced) =
        (layOutTokens (collectText 1 straggling).items).items.map (fun x => Pulled.token x.1.unplaced) ++
          [.fault .unmatchedDepth] := by
  have hall : ((collectText 1 straggling).fault, (layOutTokens (collectText 1 straggling).items).items.map (·.1.kind),
      (layOutTokens (collectText 1 straggling).items).fault) =
      (none, [.ifWord, .leftParen, .name, .comparison, .name, .rightParen, .comma, .thenWord, .newline, .indent, .name,
        .newline], some .unmatchedDepth) := by
    cbv
  simp only [Prod.mk.injEq] at hall
  obtain ⟨hc, hk, hf⟩ := hall
  have hn : (layOutTokens (collectText 1 straggling).items).items.length = 12 := by
    simpa using congrArg List.length hk
  obtain ⟨hp, hl⟩ := pulls_collected fresh hc
  refine ⟨hc, ?_, ?_⟩
  · rw [hp 2 misnoted (by simp [misnoted, Function.comp_def]), List.map_replicate, List.map_map, hf]
    exact congrArg (fun ks => List.replicate 2 (ks, some ReadFault.unmatchedDepth)) hk
  · rwa [hn, hf] at hl

end Pseudocode
