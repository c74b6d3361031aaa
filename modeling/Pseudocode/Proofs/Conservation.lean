import Mathlib
import Pseudocode.Proofs.JoinedTokens

/-!
# What the layout keeps of the tokens of a text

The scanner makes tokens of the pieces of a text (`Stage.scan`), and the layout gives them out with its own indents,
dedents and end marker between them. Each step gives out the token that it was handed, leaves out a blank, or leaves
out the end of a line on which nothing is written (`Reached.conserves_next`). Whether a line end is left out is known
from the text alone: `Reached.vacant_line` says that the tracker of lines sees a line open exactly where nothing but
blanks and a comment stands on it. So the tokens of a text without a fault are those of the scanner, in their order
and on their lines, as `Conserved` says: `conserved_tokens`.
-/

namespace Pseudocode

/-! ## Lines on which nothing is written -/

/-- Nothing but blanks, or blanks and then a comment. -/
def vacant : List Char → Bool
  | [] => true
  | c :: cs => if c = ' ' ∨ c = '\t' then vacant cs else c = '#'

section

variable {l m : List Char}

theorem vacant_append_left (h : Blanks l) (m : List Char) : vacant (l ++ m) = vacant m := by
  induction l with
  | nil => rfl
  | cons c l ih =>
    rw [List.cons_append, vacant, if_pos (h c List.mem_cons_self)]
    exact ih fun d hd => h d (List.mem_cons_of_mem _ hd)

theorem Blanks.vacant (h : Blanks l) : vacant l = true := by
  have hv := vacant_append_left h []
  rwa [List.append_nil] at hv

/-- What is written on a line stays there. -/
theorem vacant_append_written (h : vacant l = false) (m : List Char) : vacant (l ++ m) = false := by
  induction l with
  | nil => cases h
  | cons c l ih =>
    rw [vacant] at h
    rw [List.cons_append, vacant]
    split at h
    · rw [if_pos ‹_›]
      exact ih h
    · rw [if_neg ‹_›]
      exact h

theorem vacant_append_right (l : List Char) (h : vacant m = true) : vacant (l ++ m) = vacant l := by
  induction l with
  | nil => exact h
  | cons c l ih => rw [List.cons_append, vacant, vacant, ih]

end

namespace Piece

theorem written_cons {q : Char → Bool} {c : Char} (hc : q c = true) (cs : List Char) (hs : q ' ' = false)
    (ht : q '\t' = false) (hn : q '#' = false) : vacant (c :: cs) = false := by
  have hb : ¬(c = ' ' ∨ c = '\t') := by
    rintro (rfl | rfl)
    · rw [hs] at hc
      cases hc
    · rw [ht] at hc
      cases hc
  have hh : c ≠ '#' := by
    rintro rfl
    rw [hn] at hc
    cases hc
  rw [vacant, if_neg hb, decide_eq_false hh]

/-- Comments and blanks leave a line vacant, and no other piece does. -/
theorem vacant_first? {cs rest : List Char} {p : Piece} (h : first? cs = some (p, rest)) :
    vacant p.text = (p.kind == .comment || p.kind == .blanks) := by
  have hc := covers_first? h
  cases cs with
  | nil => cases h
  | cons c cs =>
    rw [first?] at h
    split at h
    case isTrue hw => cases h; exact written_cons hw _ rfl rfl rfl
    case isFalse =>
      split at h
      case isTrue hd => cases h; exact written_cons hd _ rfl rfl rfl
      case isFalse =>
        unfold mark? at h
        split at h
        case h_1 | h_2 => cases h; exact Blanks.vacant hc
        case h_5 =>
          obtain ⟨_, _, he⟩ := Option.map_eq_some_iff.1 h
          cases he
          rfl
        case h_14 | h_15 | h_16 | h_17 =>
          unfold comparison? at h
          split at h
          · cases h
            rfl
          · split at h <;> cases h
            rfl
        case h_18 => cases h
        all_goals cases h; rfl

theorem vacant_cut (cs : List Char) : ∀ p ∈ (cut cs).1, vacant p.text = (p.kind == .comment || p.kind == .blanks) := by
  fun_induction cut cs with
  | case1 =>
    intro p hp
    cases hp
  | case2 cs p rest h _ ps left hc ih =>
    rw [hc] at ih
    exact List.forall_mem_cons.2 ⟨vacant_first? h, ih⟩

theorem vacant_solid {p : Piece} (hv : vacant p.text = (p.kind == .comment || p.kind == .blanks))
    (hs : p.kind.isSolid) : vacant p.text = false := by
  rw [hv]
  generalize p.kind = k at hs
  cases k <;> first | rfl | cases hs

/-- Only line ends go over the end of a line. -/
theorem no_lineEnd {p : Piece} (h : p.kind.Covers p.text) (hk : p.kind ≠ .lineEnds) : '\n' ∉ p.text := by
  cases hs : p.kind.isSolid with
  | true => exact (solid_covers hs h).1
  | false =>
    generalize p.kind = k at h hk hs
    cases k with
    | comment => exact h
    | blanks => exact fun hn => absurd (h _ hn) (by decide)
    | lineEnds => exact absurd rfl hk
    | _ => cases hs

end Piece

section

variable {line : Nat} {text : List Char} {ps : List Piece} {s : Stage}

open Stage in
/-- A line that is not blank so far has something written on it, unless a comment was read last. -/
theorem blanks_or_written (hp : ps <+: (Piece.cut text).1) (hl : ∀ q ∈ ps.getLast?, q.kind ≠ .comment) :
    Blanks (lastLine (ps.flatMap Piece.text)) ∨ vacant (lastLine (ps.flatMap Piece.text)) = false := by
  induction ps using List.reverseRecOn with
  | nil => exact .inl nofun
  | append_singleton ps q ih =>
    have hq : q ∈ (Piece.cut text).1 := hp.subset (by simp)
    have hc := Piece.covers_cut text q hq
    by_cases he : q.kind = .lineEnds
    · rw [he] at hc
      rw [flatMap_snoc, lastLine_lineEnds _ hc.1 hc.2]
      exact .inl nofun
    · have ih := ih ((List.prefix_append _ _).trans hp) fun r hr hk => he (lineEnds_next hp hr hk)
      rw [flatMap_snoc, lastLine_append _ (Piece.no_lineEnd hc he)]
      rcases ih with hb | hw
      · cases hs : q.kind.isSolid with
        | true => exact .inr ((vacant_append_left hb _).trans (Piece.vacant_solid (Piece.vacant_cut text q hq) hs))
        | false =>
          have hk : q.kind = .blanks := by
            have hn := hl q (by simp)
            generalize q.kind = k at hs he hn
            cases k <;> first | rfl | exact absurd rfl he | exact absurd rfl hn | cases hs
          rw [hk] at hc
          exact .inl fun c hm => (List.mem_append.1 hm).elim (hb c) (hc c)
      · exact .inr (vacant_append_written hw _)

/-- Outside of parentheses, the tracker sees a line open as long as nothing is written on it. -/
theorem Reached.vacant_line (h : Reached line text ps s) :
    s.scanner.parens = 0 → vacant (lastLine (ps.flatMap Piece.text)) = s.tracker.opening := by
  refine h.keeps (I := fun ps s => s.scanner.parens = 0 →
    vacant (lastLine (ps.flatMap Piece.text)) = s.tracker.opening) (fun _ => rfl) ?_
  intro ps p s s' h h' hn hi h0
  have hp : p ∈ (Piece.cut text).1 := h'.pieces.subset (by simp)
  have hc := Piece.covers_cut text p hp
  rw [Stage.flatMap_snoc]
  -- Behind a blank or a comment a line is what it was.
  have hsame : p.kind = .comment ∨ p.kind = .blanks → s.scanner.parens = 0 →
      vacant (lastLine (ps.flatMap Piece.text ++ p.text)) = s.tracker.opening := by
    intro hk hs
    have hv : vacant p.text = true := by
      rw [Piece.vacant_cut text p hp]
      rcases hk with hk | hk <;> rw [hk] <;> rfl
    have he : p.kind ≠ .lineEnds := by rcases hk with hk | hk <;> rw [hk] <;> nofun
    rw [lastLine_append _ (Piece.no_lineEnd hc he), vacant_append_right _ hv, hi hs]
  -- Behind a line end it is empty.
  have hempty : p.kind = .lineEnds → vacant (lastLine (ps.flatMap Piece.text ++ p.text)) = true := by
    intro hk
    rw [hk] at hc
    rw [lastLine_lineEnds _ hc.1 hc.2]
    rfl
  have hwritten : p.kind.isSolid → vacant (lastLine (ps.flatMap Piece.text ++ p.text)) = false := by
    intro hk
    have he : p.kind ≠ .lineEnds := fun he => by rw [he] at hk; cases hk
    rw [lastLine_append _ (Piece.no_lineEnd hc he)]
    rcases blanks_or_written h.pieces fun r hr hr' => he (lineEnds_next h'.pieces hr hr') with hb | hw
    · rw [vacant_append_left hb, Piece.vacant_solid (Piece.vacant_cut text p hp) hk]
    · exact vacant_append_written hw _
  cases hn with
  | skipped hk =>
    rcases Piece.tokenKind?_none hk with hk | ⟨hk, -⟩ | ⟨hk, hn⟩
    · exact hsame (.inl hk) (by simpa [Scanner.after, hk] using h0)
    · exact hsame (.inr hk) (by simpa [Scanner.after, hk] using h0)
    · have h0 : s.scanner.parens = 0 := by simpa [Scanner.after, hk] using h0
      simp [h0] at hn
  | blank hm hk =>
    have hb := hm.of_blank hk
    exact hsame (.inr hb) (by simpa [Scanner.after, hb] using h0)
  | dropped hm hk | lineEnd hm hk =>
    rw [LineTracker.step_newline _ hk]
    exact hempty (hm.of_newline hk).1
  | opens hm hk | stays hm hk | closes hm hk =>
    rw [LineTracker.step_real _ hk]
    exact hwritten (hm.of_real hk)

end

/-! ## The tokens that the scanner makes -/

namespace Stage

section

variable {s s' : Stage} {p : Piece} {t : Token}

theorem made?_skipped (h : p.tokenKind? s.tracker.opening (s.scanner.parens != 0) = none) : s.made? p = none := by
  unfold made? Scanner.token?
  rw [h]

theorem Makes.made? (hm : Makes s p t) : s.made? p = some t := by
  unfold Stage.made?
  rw [hm]

theorem Makes.line (hm : Makes s p t) : t.line = s.scanner.line :=
  Scanner.token?_line hm

theorem line_after (s : Scanner) (p : Piece) : s.line ≤ (s.after p).line := by
  rw [Scanner.after]
  dsimp only
  split <;> omega

/-- The tokens that a stage and those behind it make of some pieces. -/
def scan (s : Stage) : List Piece → List Token
  | [] => []
  | p :: ps =>
    (s.made? p).toList ++
      match s.next p with
      | .ok s => s.scan ps
      | .error _ => []

theorem scan_cons (h : s.next p = .ok s') (ps : List Piece) : s.scan (p :: ps) = (s.made? p).toList ++ s'.scan ps := by
  rw [scan, h]

theorem scan_snoc {ps : List Piece} (h : s.run ps = .ok s') (p : Piece) :
    s.scan (ps ++ [p]) = s.scan ps ++ (s'.made? p).toList := by
  induction ps generalizing s with
  | nil =>
    cases h
    cases hn : s'.next p <;> simp [scan, hn]
  | cons q ps ih =>
    obtain ⟨s₁, hn, hr⟩ := run_cons_ok h
    rw [List.cons_append, scan_cons hn, scan_cons hn, ih hr, List.append_assoc]

theorem track_next (h : s.next p = .ok s') (left : List Char) (ps : List Piece) :
    let tracked := track s.scanner s.tracker left (p :: ps)
    let more := track s'.scanner s'.tracker left ps
    tracked.fault = more.fault ∧
      tracked.items.map (·.1.token) = (s.made? p).toList ++ more.items.map (·.1.token) := by
  rw [track]
  unfold next at h
  unfold made?
  cases ht : s.scanner.token? s.tracker.opening p with
  | error f =>
    rw [ht] at h
    cases h
  | ok made =>
    rw [ht] at h
    cases made with
    | none =>
      cases h
      exact ⟨rfl, rfl⟩
    | some t =>
      dsimp only at h
      split at h <;> cases h
      simp [Stream.cons, LineTracker.token_step]

/-- The tokens that are tracked in a text are those that its stages make. -/
theorem track_run {ps : List Piece} (h : s.run ps = .ok s') :
    (track s.scanner s.tracker [] ps).fault = none ∧
      (track s.scanner s.tracker [] ps).items.map (·.1.token) = s.scan ps := by
  induction ps generalizing s with
  | nil => exact ⟨rfl, rfl⟩
  | cons p ps ih =>
    obtain ⟨s₁, hn, hr⟩ := run_cons_ok h
    obtain ⟨hf, hi⟩ := track_next hn [] ps
    rw [scan_cons hn, hf, hi, (ih hr).2]
    exact ⟨(ih hr).1, rfl⟩

theorem endLine_append (ts us : List Token) : endLine (ts ++ us) = (endLine us).or (endLine ts) := by
  rw [endLine, List.getLast?_append]
  cases hu : us.getLast? <;> simp [endLine, hu]

theorem endLine_made (ts : List Token) (o : Option Token) :
    endLine (ts ++ o.toList) = (o.map Token.line).or (endLine ts) := by
  rw [endLine_append]
  cases o <;> rfl

/-- The lines of the last tokens made and given out are handed on. -/
theorem whole_scan (mark : Bool) (left : List Char) (made : List Token) {ps : List Piece} (h : s.run ps = .ok s') :
    whole mark left s (endLine made) (endLine s.out) ps =
      whole mark left s' (endLine (made ++ s.scan ps)) (endLine s'.out) [] := by
  induction ps generalizing s made with
  | nil =>
    cases h
    rw [scan, List.append_nil]
  | cons p ps ih =>
    obtain ⟨s₁, hn, hr⟩ := run_cons_ok h
    obtain ⟨new, ho, -⟩ := (next_of_ok hn).shift
    have hd : (endLine (s₁.out.drop s.out.length)).or (endLine s.out) = endLine s₁.out := by
      rw [ho, List.drop_left, endLine_append]
    rw [whole_next mark left _ _ hn, hd, ← endLine_made, ih _ hr, scan_cons hn, List.append_assoc]

end

end Stage

/-! ## What is given out of them -/

/-- The kinds of token that the layout adds. -/
def TokenKind.isLayout : TokenKind → Bool
  | .indent | .dedent | .endMarker => true
  | _ => false

theorem TokenKind.isLayout_real {k : TokenKind} (h : k.isReal) : k.isLayout = false := by
  cases k <;> first | rfl | cases h

/-- The scanned tokens that the layout gives out: no blanks, and no end of a line on which nothing is written. -/
def passes (text : List Char) (t : Token) : Bool :=
  match t.kind with
  | .blank => false
  | .newline => !vacant (lineBefore text t.pos)
  | _ => true

theorem passes_real (text : List Char) {t : Token} (h : t.kind.isReal) : passes text t = true := by
  unfold passes
  split
  · rename_i hk
    rw [hk] at h
    cases h
  · rename_i hk
    rw [hk] at h
    cases h
  · rfl

/-- Dedents, and then a token that is written on the line of this one. -/
def ClosedBefore (d : Token) (post : List Token) : Prop :=
  ∃ more u rest, post = more ++ u :: rest ∧ (∀ e ∈ more, e.kind = .dedent) ∧ u.kind.isReal ∧ d.line = u.line

theorem ClosedBefore.append {d : Token} {post : List Token} (h : ClosedBefore d post) (more : List Token) :
    ClosedBefore d (post ++ more) := by
  obtain ⟨ds, u, rest, rfl, hd, hu, hl⟩ := h
  exact ⟨ds, u, rest ++ more, by simp, hd, hu, hl⟩

/-- Dedents in a row have the rest of them right behind. -/
theorem dedents_split {n line : Nat} {rest pre : List Token} {d : Token} {post : List Token}
    (h : Indenter.dedents n line ++ rest = pre ++ d :: post) (hr : ∀ t ∈ rest, t.kind ≠ .dedent)
    (hd : d.kind = .dedent) : 0 < n ∧ d.line = line ∧ ∃ k, post = Indenter.dedents k line ++ rest := by
  induction n generalizing pre with
  | zero => exact absurd hd (hr d (by rw [show rest = pre ++ d :: post from h]; simp))
  | succ n ih =>
    cases pre with
    | nil =>
      cases h
      exact ⟨Nat.succ_pos n, rfl, n, rfl⟩
    | cons e pre =>
      obtain ⟨-, hl, hk⟩ := ih (List.cons.inj h).2
      exact ⟨Nat.succ_pos n, hl, hk⟩

/-- What a stage has given out of the tokens made so far. -/
structure Stage.Conserves (text : List Char) (made : List Token) (s : Stage) : Prop where
  kept : s.out.filter (!·.kind.isLayout) = made.filter (passes text)
  sorted : s.out.Pairwise (·.line ≤ ·.line)
  reached : ∀ t ∈ s.out, t.line ≤ s.scanner.line
  behind : ∀ t ∈ s.out, ∃ u ∈ made.getLast?, t.line ≤ u.line
  dedents : Placed (· = .dedent) (fun _ d post => ClosedBefore d post) s.out

namespace Stage.Conserves

variable {text : List Char} {made : List Token} {s s' : Stage} {t : Token}

theorem start (text : List Char) (line : Nat) : Conserves text [] (.start line) :=
  ⟨rfl, .nil, nofun, nofun, Placed.nil⟩

theorem skip (h : Conserves text made s) (hl : s.scanner.line ≤ s'.scanner.line) (ho : s'.out = s.out) :
    Conserves text made s' := by
  refine ⟨ho ▸ h.kept, ho ▸ h.sorted, fun u hu => ?_, ho ▸ h.behind, ho ▸ h.dedents⟩
  rw [ho] at hu
  exact (h.reached u hu).trans hl

/-- A token is made and not given out. -/
theorem leave (h : Conserves text made s) (ht : t.line = s.scanner.line) (hp : passes text t = false) :
    Conserves text (made ++ [t]) s := by
  refine ⟨?_, h.sorted, h.reached, fun u hu => ⟨t, by simp, ht ▸ h.reached u hu⟩, h.dedents⟩
  rw [List.filter_append, h.kept]
  simp [hp]

/-- A token is made and given out, with tokens of the layout before it. -/
theorem give (h : Conserves text made s) (new : List Token) (ht : t.line = s.scanner.line)
    (hp : passes text t = true) (hk : t.kind.isLayout = false) (hs : s.scanner.line ≤ s'.scanner.line)
    (hn : ∀ u ∈ new, u.kind.isLayout = true ∧ u.line = t.line)
    (hd : ∀ pre d post, new ++ [t] = pre ++ d :: post → d.kind = .dedent → ClosedBefore d post)
    (ho : s'.out = s.out ++ (new ++ [t])) : Conserves text (made ++ [t]) s' := by
  have hline : ∀ u ∈ new ++ [t], u.line = t.line := by
    intro u hu
    rcases List.mem_append.1 hu with hu | hu
    · exact (hn u hu).2
    · rw [List.mem_singleton.1 hu]
  have hall : ∀ u ∈ s'.out, u.line ≤ t.line := by
    intro u hu
    rw [ho] at hu
    rcases List.mem_append.1 hu with hu | hu
    · exact ht ▸ h.reached u hu
    · exact (hline u hu).le
  refine ⟨?_, ?_, fun u hu => (hall u hu).trans (ht ▸ hs), fun u hu => ⟨t, by simp, hall u hu⟩, ?_⟩
  · have he : new.filter (!·.kind.isLayout) = [] :=
      List.filter_eq_nil_iff.2 fun u hu => by simp [(hn u hu).1]
    rw [ho, List.filter_append, List.filter_append, List.filter_append, h.kept, he]
    simp [hp, hk]
  · rw [ho]
    refine List.pairwise_append.2 ⟨h.sorted, ?_, fun u hu v hv => ?_⟩
    · exact List.pairwise_of_forall_mem_list fun u hu v hv => ((hline u hu).trans (hline v hv).symm).le
    · rw [hline v hv, ht]
      exact h.reached u hu
  · rw [ho]
    exact h.dedents.append (fun _ _ _ more hc => hc.append more) hd

/-- A token that is written in a line is given out. -/
theorem real (h : Conserves text made s) (new : List Token) (ht : t.line = s.scanner.line) (hk : t.kind.isReal)
    (hs : s.scanner.line ≤ s'.scanner.line)
    (hn : ∀ u ∈ new, u.kind.isLayout = true ∧ u.line = t.line)
    (hd : ∀ pre d post, new ++ [t] = pre ++ d :: post → d.kind = .dedent → ClosedBefore d post)
    (ho : s'.out = s.out ++ (new ++ [t])) : Conserves text (made ++ [t]) s' :=
  h.give new ht (passes_real text hk) (TokenKind.isLayout_real hk) hs hn hd ho

end Stage.Conserves

/-- No dedent stands among tokens that are of other kinds. -/
theorem closedBefore_others {ts : List Token} (h : ∀ t ∈ ts, t.kind ≠ .dedent) (pre : List Token) (d : Token)
    (post : List Token) (he : ts = pre ++ d :: post) (hd : d.kind = .dedent) : ClosedBefore d post :=
  absurd hd (h d (by simp [he]))

section

variable {line : Nat} {text : List Char} {ps : List Piece} {s : Stage}

/-- What one step gives out. -/
theorem Reached.conserves_next {p : Piece} {s' : Stage} {made : List Token} (h : Reached line text ps s)
    (hn : s.Next p s') (hc : s.Conserves text made) : s'.Conserves text (made ++ (s.made? p).toList) := by
  have hl := Stage.line_after s.scanner p
  have hvac : ∀ {t : Token}, s.Makes p t → t.kind = .newline → vacant (lineBefore text t.pos) = s.tracker.opening := by
    intro t hm hk
    rw [(Scanner.token?_some hm).2.2, h.lineBefore_pos]
    exact h.vacant_line (hm.of_newline hk).2
  cases hn with
  | skipped hk =>
    rw [Stage.made?_skipped hk, Option.toList_none, List.append_nil]
    exact hc.skip hl rfl
  | blank hm hk =>
    rw [hm.made?]
    exact (hc.leave hm.line (by simp [passes, hk])).skip hl rfl
  | dropped hm hk hd =>
    rw [hm.made?]
    have ho : s.tracker.opening = true := (Bool.or_eq_true_iff.1 hd).elim h.tracks.blank id
    refine (hc.leave hm.line ?_).skip hl rfl
    rw [passes, hk]
    simp only [hvac hm hk, ho, Bool.not_true]
  | lineEnd hm hk _ ho =>
    rw [hm.made?]
    have hd := closedBefore_others (List.forall_mem_singleton.2 (by rw [hk]; nofun))
    refine hc.give [] hm.line ?_ (by rw [hk]; rfl) hl nofun hd rfl
    rw [passes, hk]
    simp only [hvac hm hk, ho, Bool.not_false]
  | opens hm hk =>
    rw [hm.made?]
    refine hc.real [.ofLayout .indent _] hm.line hk hl (List.forall_mem_singleton.2 ⟨rfl, rfl⟩) ?_ rfl
    refine closedBefore_others (List.forall_mem_cons.2 ⟨nofun, ?_⟩)
    exact List.forall_mem_singleton.2 (TokenKind.isReal_ne hk rfl)
  | stays hm hk =>
    rw [hm.made?]
    have hd := closedBefore_others (List.forall_mem_singleton.2 (TokenKind.isReal_ne hk rfl))
    exact hc.real [] hm.line hk hl nofun hd rfl
  | @closes t hm hk =>
    rw [hm.made?]
    refine hc.real _ hm.line hk hl (fun u hu => ?_) (fun pre d post he hd => ?_) rfl
    · rw [Indenter.dedents] at hu
      rw [List.eq_of_mem_replicate hu]
      exact ⟨rfl, rfl⟩
    · obtain ⟨-, hline, k, rfl⟩ := dedents_split he (List.forall_mem_singleton.2 (TokenKind.isReal_ne hk rfl)) hd
      exact ⟨_, t, [], rfl, fun e hm => Indenter.kind_dedents hm, hk, hline⟩

theorem Reached.conserves (h : Reached line text ps s) : s.Conserves text ((Stage.start line).scan ps) := by
  refine h.keeps (I := fun ps s => s.Conserves text ((Stage.start line).scan ps)) (.start text line) ?_
  intro ps p s s' h _ hn hc
  rw [Stage.scan_snoc h.run]
  exact h.conserves_next hn hc

end

/-! ## The tokens of a text -/

/-- The line of a dedent is that of the token that is written behind it and the dedents beside it or, where none is,
that of the last token that was scanned. -/
def DedentLine (scanned : List Token) (d : Token) (post : List Token) : Prop :=
  ∃ more rest, post = more ++ rest ∧ (∀ e ∈ more, e.kind = .dedent) ∧
    ((∃ u after, rest = u :: after ∧ u.kind.isReal ∧ d.line = u.line) ∨
      ((∀ e ∈ rest, e.kind = .endMarker) ∧ ∃ u, scanned.getLast? = some u ∧ d.line = u.line))

/-- What the tokens given out have to do with those that were scanned of a text. -/
structure Conserved (text : List Char) (scanned out : List Token) : Prop where
  /-- No token is lost, made up, changed or moved, but for blanks and for the ends of lines with nothing on them. -/
  kept : out.filter (!·.kind.isLayout) = scanned.filter (passes text)
  /-- A line ends right behind a token that is written in it. -/
  written : LinesWritten out
  opening : ∀ t ∈ out.head?, t.kind ≠ .newline
  apart : ∀ pre n mid n' post, out = pre ++ n :: (mid ++ n' :: post) → n.kind = .newline → n'.kind = .newline →
    ∃ t ∈ mid, t.kind.isReal
  sorted : out.Pairwise (·.line ≤ ·.line)
  dedents : ∀ pre d post, out = pre ++ d :: post → d.kind = .dedent → DedentLine scanned d post

theorem LinesWritten.opening {out : List Token} (h : LinesWritten out) : ∀ t ∈ out.head?, t.kind ≠ .newline := by
  intro t ht hk
  obtain ⟨post, rfl⟩ := List.head?_eq_some_iff.1 ht
  obtain ⟨pre, u, he, -⟩ := h [] t post rfl hk
  cases pre <;> cases he

theorem LinesWritten.apart {out pre mid post : List Token} {n n' : Token} (h : LinesWritten out)
    (ho : out = pre ++ n :: (mid ++ n' :: post)) (hn : n.kind = .newline) (hn' : n'.kind = .newline) :
    ∃ t ∈ mid, t.kind.isReal := by
  obtain ⟨ts, u, he, hu⟩ := h (pre ++ n :: mid) n' post (by simp [ho]) hn'
  rcases List.eq_nil_or_concat mid with rfl | ⟨init, v, rfl⟩
  · have hv := (List.append_inj_right' he rfl)
    cases hv
    rw [hn] at hu
    cases hu
  · have hl : pre ++ n :: (init ++ [v]) = (pre ++ n :: init) ++ [v] := by simp
    rw [List.concat_eq_append, hl] at he
    cases List.append_inj_right' he rfl
    exact ⟨u, by simp, hu⟩

/-- In tokens on lines that do not go back, none stands below the last one. -/
theorem line_le_endLine {ts : List Token} (h : ts.Pairwise (·.line ≤ ·.line)) {t : Token} (ht : t ∈ ts) :
    t.line ≤ (Stage.endLine ts).getD 1 := by
  rcases List.eq_nil_or_concat ts with rfl | ⟨init, u, rfl⟩
  · cases ht
  · rw [List.concat_eq_append] at h ht
    have he : Stage.endLine (init.concat u) = some u.line := by simp [Stage.endLine]
    rw [he, Option.getD_some]
    rcases List.mem_append.1 ht with ht | ht
    · exact (List.pairwise_append.1 h).2.2 t ht u List.mem_cons_self
    · rw [List.mem_singleton.1 ht]

theorem ClosedBefore.dedentLine {scanned : List Token} {d : Token} {post : List Token} (h : ClosedBefore d post) :
    DedentLine scanned d post := by
  obtain ⟨more, u, rest, rfl, hm, hu, hl⟩ := h
  exact ⟨more, u :: rest, rfl, hm, .inl ⟨u, rest, rfl, hu, hl⟩⟩

/-- The tokens that end a text: dedents on the line of the last token made, and perhaps a marker on the last line. -/
structure Stage.Closing (s : Stage) (made closing final : List Token) : Prop where
  dedents : closing = Indenter.dedents (s.indenter.levels.length - 1) ((endLine made).getD 1)
  marker : ∀ e ∈ final, e = endMarker (endLine (s.out ++ closing))

namespace Stage.Conserves

variable {text : List Char} {made closing final : List Token} {s : Stage}

theorem line_le (h : Conserves text made s) {t : Token} (ht : t ∈ s.out) :
    ∃ u, made.getLast? = some u ∧ t.line ≤ u.line ∧ (endLine made).getD 1 = u.line := by
  obtain ⟨u, hu, hl⟩ := h.behind t ht
  have hu : made.getLast? = some u := hu
  exact ⟨u, hu, hl, by simp [endLine, hu]⟩

theorem kept_closing (h : Conserves text made s) (hc : s.Closing made closing final) :
    (s.out ++ closing ++ final).filter (!·.kind.isLayout) = made.filter (passes text) := by
  have hd : closing.filter (!·.kind.isLayout) = [] := by
    rw [hc.dedents]
    exact List.filter_eq_nil_iff.2 fun u hu => by simp [Indenter.kind_dedents hu, TokenKind.isLayout]
  have hm : final.filter (!·.kind.isLayout) = [] :=
    List.filter_eq_nil_iff.2 fun u hu => by simp [hc.marker u hu, endMarker, Token.ofLayout, TokenKind.isLayout]
  rw [List.filter_append, List.filter_append, h.kept, hd, hm, List.append_nil, List.append_nil]

theorem sorted_closing (h : Conserves text made s) (hc : s.Closing made closing final) :
    (s.out ++ closing ++ final).Pairwise (·.line ≤ ·.line) := by
  have hline : ∀ u ∈ closing, u.line = (endLine made).getD 1 := by
    intro u hu
    rw [hc.dedents, Indenter.dedents] at hu
    rw [List.eq_of_mem_replicate hu]
    rfl
  have hs : (s.out ++ closing).Pairwise (·.line ≤ ·.line) := by
    refine List.pairwise_append.2 ⟨h.sorted, ?_, fun t ht v hv => ?_⟩
    · exact List.pairwise_of_forall_mem_list fun u hu v hv => ((hline u hu).trans (hline v hv).symm).le
    · obtain ⟨u, -, hl, he⟩ := h.line_le ht
      rw [hline v hv, he]
      exact hl
  refine List.pairwise_append.2 ⟨hs, ?_, fun t ht v hv => ?_⟩
  · refine List.pairwise_of_forall_mem_list fun u hu v hv => ?_
    rw [hc.marker u hu, hc.marker v hv]
  · rw [hc.marker v hv]
    exact line_le_endLine hs ht

/-- Where blocks are open at the end, some token was made. -/
theorem exists_made (h : Conserves text made s) (hn : s.Nested) (hl : 0 < s.indenter.levels.length - 1) :
    ∃ u, made.getLast? = some u ∧ (endLine made).getD 1 = u.line := by
  have hi : 0 < amount .indent s.out := by
    have hc := hn.count
    omega
  obtain ⟨t, ht, -⟩ := List.countP_pos_iff.1 hi
  obtain ⟨u, hu, -, he⟩ := h.line_le ht
  exact ⟨u, hu, he⟩

theorem dedents_closing (h : Conserves text made s) (hn : s.Nested) (hc : s.Closing made closing final)
    (pre : List Token) (d : Token) (post : List Token) (he : s.out ++ closing ++ final = pre ++ d :: post)
    (hd : d.kind = .dedent) : DedentLine made d post := by
  have hm : ∀ e ∈ final, e.kind = .endMarker := fun e hf => by rw [hc.marker e hf]; rfl
  have hnew : ∀ mid, closing ++ final = mid ++ d :: post → DedentLine made d post := by
    intro mid hmid
    rw [hc.dedents] at hmid
    obtain ⟨hpos, hl, k, rfl⟩ := dedents_split hmid (fun e hf => by rw [hm e hf]; nofun) hd
    obtain ⟨u, hu, hline⟩ := h.exists_made hn hpos
    exact ⟨_, final, rfl, fun e hk => Indenter.kind_dedents hk, .inr ⟨hm, u, hu, hl.trans hline⟩⟩
  rw [List.append_assoc] at he
  rcases List.append_eq_append_iff.1 he with ⟨mid, rfl, hmid⟩ | ⟨mid, hout, hpost⟩
  · exact hnew mid hmid
  · cases mid with
    | nil => exact hnew [] hpost.symm
    | cons v mid =>
      cases hpost
      exact ((h.dedents pre d mid hout hd).append _).dedentLine

end Stage.Conserves

/-- The tokens of a text without a fault, with the lines of the last ones. -/
theorem tokens_of_scan {line : Nat} {text : List Char} {s : Stage} (hc : (Piece.cut text).2 = [])
    (hr : (Stage.start line).run (Piece.cut text).1 = .ok s) (mark : Bool) :
    ∃ closing final, s.Closing ((Stage.start line).scan (Piece.cut text).1) closing final ∧
      tokens line mark text = s.out ++ closing ++ final := by
  have ht := tokenize_eq_whole line mark text
  have hw := Stage.whole_scan mark [] [] hr
  rw [hc] at ht
  rw [Stage.whole_finish, List.nil_append] at hw
  refine ⟨_, _, ⟨rfl, ?_⟩, (congrArg Prod.fst ht).trans (congrArg Prod.fst hw)⟩
  intro e he
  rw [Stage.endLine_append]
  split at he
  · exact List.mem_singleton.1 he
  · cases he

/-- The layout keeps the tokens that are scanned of a text without a fault: it gives them out as they are and in their
order, without blanks and without the ends of lines on which nothing is written. A line ends right behind a token that
is written in it, so that no two line ends come without one between them. The lines of the tokens never go back, and a
dedent has the line of what closes its block. -/
theorem conserved_tokens (line : Nat) (mark : Bool) (text : List Char)
    (hf : (tokenize line mark text).fault = none) :
    (trackText line text).fault = none ∧
      Conserved text ((trackText line text).items.map (·.1.token)) (tokens line mark text) := by
  obtain ⟨hc, s, hr⟩ := run_of_fault hf
  have hs : Reached line text (Piece.cut text).1 s := ⟨List.prefix_refl _, hr⟩
  obtain ⟨hn, hi⟩ : (trackText line text).fault = none ∧
      (trackText line text).items.map (·.1.token) = (Stage.start line).scan (Piece.cut text).1 := by
    rw [trackText, hc]
    exact Stage.track_run hr
  have hk := hs.conserves
  have hw := linesWritten_tokens line mark text
  obtain ⟨closing, final, hd, ht⟩ := tokens_of_scan hc hr mark
  rw [ht] at hw ⊢
  rw [hi]
  exact ⟨hn, hk.kept_closing hd, hw, hw.opening, fun _ _ _ _ _ => hw.apart, hk.sorted_closing hd,
    hk.dedents_closing hs.nested hd⟩

/-- Lines that are empty, blank or only a comment, a line end between parentheses, and blocks that are closed before a
token and at the end. -/
def scattered : List Char :=
  "# a\nif (x ==\n 1), then\n\n  print 1 # b\n \nelse\n  print 2\n\n# c".toList

theorem conserved_tokens_scattered :
    (tokenize 1 true scattered).fault = none ∧
      (tokens 1 true scattered).map (fun t => (t.kind, t.line)) =
        [(.ifWord, 2), (.leftParen, 2), (.name, 2), (.comparison, 2), (.number, 3), (.rightParen, 3), (.comma, 3),
          (.thenWord, 3), (.newline, 3), (.indent, 5), (.printWord, 5), (.number, 5), (.newline, 5), (.dedent, 7),
          (.elseWord, 7), (.newline, 7), (.indent, 8), (.printWord, 8), (.number, 8), (.newline, 8), (.dedent, 8),
          (.endMarker, 8)] ∧
      Conserved scattered ((trackText 1 scattered).items.map (·.1.token)) (tokens 1 true scattered) := by
  have hf : (tokenize 1 true scattered).fault = none := by cbv
  exact ⟨hf, by cbv, (conserved_tokens 1 true scattered hf).2⟩

end Pseudocode
