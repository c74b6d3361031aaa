import Mathlib
import Pseudocode.Proofs.Attachment

/-!
# An `else` stands where its `if` stands

A logical line begins with a token before which only blanks stand on the line and no parenthesis is open, and it goes
on up to the next such token. Every token that is written in a text stands in a logical line, and within the line no
block is opened or closed (`exists_heads`). Between an `if` and its `else` the blocks that are opened are closed, so
the lines of the two lie in one block, and all lines between them lie in it or further inside. With what is known of
the lines of a block, that is what their indentation says: `else_follows_layout`.
-/

namespace Pseudocode

open Conditional

/-! ## Logical lines -/

/-- A token and those behind it in its logical line, which it begins. -/
structure Heads (text : List Char) (before : List Token) (h : Token) (rest : List Token) : Prop where
  start : LineStart text before h
  within : ∀ mid u post, rest = mid ++ u :: post → ¬LineStart text (before ++ h :: mid) u

/-- The token behind `pre` stands in a logical line that is indented by `n`. -/
def Indented (text : List Char) (pre : List Token) (t : Token) (n : Nat) : Prop :=
  ∃ before h rest, pre ++ [t] = before ++ h :: rest ∧ Heads text before h rest ∧ (lineBefore text h.pos).length = n

/-- Within a line, a token is given out alone. -/
theorem Stage.Next.out_within {s s' : Stage} {p : Piece} {t : Token} (hn : Next s p s') (ht : s.Tracks)
    (hm : Makes s p t) (hk : t.kind.isReal) (ho : s.tracker.opening = false) : s'.out = s.out ++ [t] := by
  cases hn with
  | skipped h => rw [(Scanner.token?_some hm).1] at h; cases h
  | blank hm' hk' | dropped hm' hk' | lineEnd hm' hk' =>
    rw [hm.unique hm', hk'] at hk
    cases hk
  -- A block is due only behind the end of a line.
  | opens _ _ _ hw =>
    obtain ⟨pre, a, n, he, -, hn⟩ := ht.wait_iff.1 hw
    obtain ⟨pre', u, he', hu⟩ := ht.written ho
    rw [he, List.append_cons] at he'
    rw [← List.singleton_inj.1 (List.append_inj_right' he' rfl), hn] at hu
    cases hu
  | stays hm' => rw [hm.unique hm']
  | closes _ _ ho' => rw [ho] at ho'; cases ho'

section

variable {line : Nat} {text : List Char} {pre : List Token} {t : Token} {ps : List Piece} {p : Piece} {s s' : Stage}

/-- A token before which the line was still open begins it. -/
theorem Gives.lineStart (h : Gives line text pre t ps p s s') (hk : t.kind.isReal) (ho : s.tracker.opening = true) :
    LineStart text pre t := by
  have hi := h.before.inLine
  refine ⟨hk, h.parens.symm.trans (hi.parens.symm.trans (hi.flat ho)), ?_⟩
  rw [(Scanner.token?_some h.made).2.2, h.before.lineBefore_pos]
  exact (hi.leading ho (h.not_comment hk)).1

/-- Any other token comes right behind a token of its line. -/
theorem Gives.continues (h : Gives line text pre t ps p s s') (hk : t.kind.isReal) (ho : s.tracker.opening = false) :
    ¬LineStart text pre t ∧ EndsReal pre := by
  have hi := h.before.inLine
  have hr := h.before.tracks.written ho
  have hn := Stage.next_of_ok (h.before.next_ok h.behind)
  have hout : s.out = pre :=
    List.append_inj_left' ((hn.out_within h.before.tracks h.made hk ho).symm.trans h.out) rfl
  refine ⟨fun hl => ?_, hout ▸ hr⟩
  have hb := hl.blanks
  rw [(Scanner.token?_some h.made).2.2, h.before.lineBefore_pos] at hb
  exact hi.written ho (hi.parens.trans (h.parens.trans hl.flat)) hb

theorem starts_or_continues (mark : Bool) {post : List Token} (ht : tokens line mark text = pre ++ t :: post)
    (hk : t.kind.isReal) : LineStart text pre t ∨ ¬LineStart text pre t ∧ EndsReal pre := by
  obtain ⟨ps, p, s, s', hg⟩ := gives_tokens mark pre t post ht hk
  cases ho : s.tracker.opening with
  | true => exact .inl (hg.lineStart hk ho)
  | false => exact .inr (hg.continues hk ho)

/-- Every token that is written in a text stands in a logical line, and no layout stands between it and the beginning
of the line. -/
theorem exists_heads (mark : Bool) {post : List Token} (ht : tokens line mark text = pre ++ t :: post)
    (hk : t.kind.isReal) :
    ∃ before h rest, pre ++ [t] = before ++ h :: rest ∧ Heads text before h rest ∧ ∀ u ∈ rest, u.kind.isReal := by
  induction pre using List.reverseRecOn generalizing t post with
  | nil =>
    rcases starts_or_continues mark ht hk with hl | ⟨-, pre, u, he, -⟩
    · exact ⟨[], t, [], rfl, ⟨hl, by simp⟩, by simp⟩
    · cases pre <;> cases he
  | append_singleton pre u ih =>
    rcases starts_or_continues mark ht hk with hl | ⟨hn, pre', u', he, hu⟩
    · exact ⟨pre ++ [u], t, [], rfl, ⟨hl, by simp⟩, by simp⟩
    · obtain ⟨rfl, hu'⟩ := List.append_inj' he rfl
      cases hu'
      -- The line of the token before it goes on.
      obtain ⟨before, h, rest, hj, hh, hr⟩ := @ih u (t :: post) (by simpa using ht) hu
      refine ⟨before, h, rest ++ [t], by rw [hj]; simp, ⟨hh.start, fun mid v post he hl => ?_⟩, ?_⟩
      · rcases append_eq_mid he with ⟨m, hm, -⟩ | ⟨m, rfl, hm⟩
        · exact hh.within mid v m hm hl
        · obtain ⟨rfl, rfl⟩ := single_eq_mid hm
          rw [List.append_nil, ← hj] at hl
          exact hn hl
      · exact List.forall_mem_append.2 ⟨hr, List.forall_mem_singleton.2 hk⟩

end

/-! ## The lines of an `if` and of its `else` -/

/-- The `if` behind `base` and the `else` behind it and `mid` belong together as the layout says. -/
structure FollowsLayout (text : List Char) (ws : List Word) (base : List Token) (i : Token) (mid : List Token)
    (e : Token) : Prop where
  kind : i.kind = .ifWord
  belongs : Belongs ws (base ++ i :: mid) mid
  /-- Their lines are indented alike, and no line between them is indented less. -/
  lines : ∃ n, Indented text base i n ∧ Indented text (base ++ i :: mid) e n ∧
    ∀ pre u post, mid = pre ++ u :: post → LineStart text (base ++ i :: pre) u → n ≤ (lineBefore text u.pos).length
  /-- Every other `if` between them that stands in the same block has an `else` of its own there. -/
  nearest : Answered ws (base ++ [i]) mid

theorem amount_all_real {k : TokenKind} (hk : k.isReal = false) {ts : List Token} (h : ∀ t ∈ ts, t.kind.isReal) :
    amount k ts = 0 :=
  amount_others fun t ht => TokenKind.isReal_ne (h t ht) hk

section

variable {line : Nat} {mark : Bool} {text : List Char} {base mid post : List Token} {i e : Token}

/-- A line that begins behind a token of another one, in the same block or in one inside it. -/
theorem Heads.aligned {before rest : List Token} {h : Token} (hh : Heads text before h rest)
    (hr : ∀ u ∈ rest, u.kind.isReal) (hj : base ++ [i] = before ++ h :: rest)
    (ht : tokens line mark text = base ++ i :: (mid ++ e :: post)) (hm : Opened mid)
    (he : LineStart text (base ++ i :: mid) e) :
    (amount .dedent mid = amount .indent mid → (lineBefore text h.pos).length = (lineBefore text e.pos).length) ∧
      (lineBefore text h.pos).length ≤ (lineBefore text e.pos).length := by
  have hpre : base ++ i :: mid = before ++ h :: (rest ++ mid) := by
    rw [List.append_cons, hj, List.append_assoc, List.cons_append]
  have hout : tokens line mark text = before ++ h :: ((rest ++ mid) ++ e :: post) := by
    rw [ht, ← List.cons_append, ← List.append_assoc, hpre]
    simp
  rw [hpre] at he
  obtain ⟨_, _, _, _, hg⟩ := gives_tokens mark before h _ hout hh.start.real
  obtain ⟨_, _, _, _, hg'⟩ := gives_tokens mark (before ++ h :: (rest ++ mid)) e post (by rw [hout]; simp) he.real
  have hd : amount .dedent (rest ++ mid) = amount .dedent mid := by
    rw [amount_append, amount_all_real rfl hr, Nat.zero_add]
  have hi : amount .indent (rest ++ mid) = amount .indent mid := by
    rw [amount_append, amount_all_real rfl hr, Nat.zero_add]
  have ho : Opened (rest ++ mid) := by
    intro pre hp
    rcases prefix_append_cases hp with hp | ⟨m, rfl, hm'⟩
    · rw [amount_all_real rfl fun u hu => hr u (hp.subset hu)]
      exact Nat.zero_le _
    · rw [amount_append, amount_append, amount_all_real rfl hr, amount_all_real rfl hr, Nat.zero_add, Nat.zero_add]
      exact hm m hm'
  obtain ⟨heq, hlt⟩ := hg.aligned hg' hh.start he ho
  rw [hd, hi] at heq hlt
  refine ⟨heq, ?_⟩
  rcases Nat.lt_or_eq_of_le (hm mid (List.prefix_refl mid)) with hc | hc
  · exact (hlt hc).le
  · exact (heq hc).le

/-- The lines of an `if` and of an `else`, with balanced tokens between the two. -/
theorem indented_alike (ht : tokens line mark text = base ++ i :: (mid ++ e :: post)) (hi : i.kind.isReal)
    (he : e.kind.isReal) (hm : Balanced mid) :
    ∃ n, Indented text base i n ∧ Indented text (base ++ i :: mid) e n ∧
      ∀ pre u rest, mid = pre ++ u :: rest → LineStart text (base ++ i :: pre) u →
        n ≤ (lineBefore text u.pos).length := by
  have hte : tokens line mark text = (base ++ i :: mid) ++ e :: post := by simpa using ht
  obtain ⟨before, h, rest, hj, hh, hr⟩ := exists_heads mark ht hi
  obtain ⟨before', h', rest', hj', hh', hr'⟩ := exists_heads mark hte he
  have hsplit : (base ++ [i]) ++ (mid ++ [e]) = before' ++ h' :: rest' := by
    rw [← hj']
    simp
  rcases append_eq_mid hsplit with ⟨m, hb, rfl⟩ | ⟨m, rfl, hb⟩
  -- The `else` stands in the line of the `if`.
  · refine ⟨_, ⟨before', h', m, hb, ⟨hh'.start, fun a u b hu => ?_⟩, rfl⟩, ⟨before', h', _, hj', hh', rfl⟩, ?_⟩
    · exact hh'.within a u (b ++ (mid ++ [e])) (by rw [hu]; simp)
    · intro pre u more hu hl
      refine absurd hl ?_
      have hw := hh'.within (m ++ pre) u (more ++ [e]) (by rw [hu]; simp)
      rw [← List.cons_append, ← List.append_assoc, ← hb] at hw
      simpa using hw
  -- The line of the `else` begins behind the `if`.
  · have hreal : ∀ u ∈ h' :: rest', u.kind.isReal := List.forall_mem_cons.2 ⟨hh'.start.real, hr'⟩
    have hpre : m <+: mid := by
      have hl := congrArg List.length hb
      rw [List.length_append, List.length_append, List.length_singleton, List.length_cons] at hl
      exact List.prefix_of_prefix_length_le ⟨h' :: rest', hb.symm⟩ (List.prefix_append mid [e]) (by omega)
    have hout : tokens line mark text = base ++ i :: (m ++ h' :: (rest' ++ post)) := by
      rw [ht, List.append_cons mid, hb]
      simp
    have hamount : ∀ k : TokenKind, k.isReal = false → amount k m = amount k mid := by
      intro k hk
      have hc := congrArg (amount k) hb
      rw [amount_append, amount_append, amount_real hk he, amount_all_real hk hreal] at hc
      exact hc.symm
    have hal := hh.aligned hr hj hout (hm.opened.of_prefix hpre) (by simpa using hh'.start)
    have hn := hal.1 (by rw [hamount _ rfl, hamount _ rfl, hm.closed])
    refine ⟨_, ⟨before, h, rest, hj, hh, rfl⟩, ⟨_, h', rest', hj', hh', hn.symm⟩, ?_⟩
    intro pre u more hu hl
    have hout : tokens line mark text = base ++ i :: (pre ++ u :: (more ++ e :: post)) := by
      rw [ht, hu]
      simp
    exact (hh.aligned hr hj hout (hm.opened.of_prefix ⟨u :: more, hu.symm⟩) hl).2

end

/-- The `if`s and `else`s of a program are those of its tree, in order. Every `else` belongs to an `if` before it so
that the lines of the two are indented alike, no line between them is indented less, and every other `if` between them
in the same block has an `else` of its own before this one. -/
theorem else_follows_layout {source : String} {program : List Tree} (h : readProgram source = .ok program) :
    (Tree.wordsAll program).map Word.kind =
        ((tokens 1 true source.toList).map Token.kind).filter TokenKind.isConditional ∧
      ∀ pre e post, tokens 1 true source.toList = pre ++ e :: post → e.kind = .elseWord →
        ∃ base i mid, pre = base ++ i :: mid ∧
          FollowsLayout source.toList (Tree.wordsAll program) base i mid e := by
  have hm := Reader.matched_programOf (linesWritten_tokens 1 true source.toList) (readProgram_eq_ok h)
  refine ⟨hm.kinds, fun pre e post he hk => ?_⟩
  obtain ⟨base, i, mid, rfl, ha⟩ := hm.attached pre e post he hk
  have ht : tokens 1 true source.toList = base ++ i :: (mid ++ e :: post) := by simpa using he
  have hl := indented_alike ht (by rw [ha.kind]; rfl) (by rw [hk]; rfl) ha.balanced
  exact ⟨base, i, mid, rfl, ha.kind, ha.belongs, hl, ha.answered⟩

/-- Two `else`s in one line behind a block with an `if` that has none. -/
def nestedSource : String :=
  "if a == b, then if a == c, then\n  if c < d, then print\nelse @1 else @2"

def nestedChoice : List Tree :=
  [.choose (.comparison "==" [.name "a", .name "b"])
    (.choose (.comparison "==" [.name "a", .name "c"]) (.when (.comparison "<" [.name "c", .name "d"]) (.print .none))
      (.mark (.int 1)))
    (.mark (.int 2))]

theorem else_follows_nested :
    readProgram nestedSource = .ok nestedChoice ∧
      Tree.wordsAll nestedChoice = [.opens, .opens, .opens, .other 2, .other 4] ∧
      ∀ pre e post, tokens 1 true nestedSource.toList = pre ++ e :: post → e.kind = .elseWord →
        ∃ base i mid, pre = base ++ i :: mid ∧
          FollowsLayout nestedSource.toList (Tree.wordsAll nestedChoice) base i mid e := by
  have h : readProgram nestedSource = .ok nestedChoice := by cbv
  exact ⟨h, rfl, (else_follows_layout h).2⟩

end Pseudocode
