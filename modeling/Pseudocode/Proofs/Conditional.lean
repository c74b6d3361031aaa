import Mathlib
import Pseudocode.Proofs.Indentation
import Pseudocode.Tree.Basic

/-!
# Which `if` an `else` belongs to

A tree does not say where its parts were written. But its conditional statements, read from left to right, name the
`if`s and `else`s of its text in their order (`Tree.words`), and with each `else` how many of them lie between it and
its `if`. So the words of a tree say of every `else` among the tokens of its text which `if` it belongs to (`Belongs`).

Words and tokens are `Matched` if between an `if` and its `else` as many blocks are opened as are closed, and every
other `if` that stands there outside of these blocks has an `else` of its own. Matched tokens behind each other are
matched (`Matched.append`), a block of them leaves no `if` open (`Sound.block`), and a conditional statement with both
its parts is matched if its first part leaves no `if` open (`Opening.choose`).
-/

namespace Pseudocode

/-! ## Words -/

/-- A word of a conditional statement. An `else` says how many words further back its `if` stands. -/
inductive Word where
  | opens
  | other (back : Nat)

def Word.kind : Word → TokenKind
  | .opens => .ifWord
  | .other _ => .elseWord

namespace Tree

mutual

/-- The `if`s and `else`s of the statements in a tree, in the order in which they are written. -/
def words : Tree → List Word
  | list items => wordsAll items
  | when _ body => .opens :: words body
  | choose _ body other => .opens :: (words body ++ .other ((words body).length + 1) :: words other)
  | _ => []

def wordsAll : List Tree → List Word
  | [] => []
  | t :: rest => words t ++ wordsAll rest

end

theorem wordsAll_append (ts us : List Tree) : wordsAll (ts ++ us) = wordsAll ts ++ wordsAll us := by
  induction ts with
  | nil => rw [List.nil_append, wordsAll, List.nil_append]
  | cons t ts ih => rw [List.cons_append, wordsAll, wordsAll, ih, List.append_assoc]

theorem wordsAll_single (t : Tree) : wordsAll [t] = t.words := by
  rw [wordsAll, wordsAll, List.append_nil]

end Tree

namespace TokenKind

/-- The words that conditional statements are made of. -/
def isConditional : TokenKind → Bool
  | .ifWord | .elseWord => true
  | _ => false

/-- The kinds of token that neither begin a part of a conditional statement nor open or close a block. -/
def isQuiet : TokenKind → Bool
  | .ifWord | .elseWord | .indent | .dedent => false
  | _ => true

end TokenKind

namespace Conditional

/-- How many words of conditional statements there are among tokens. -/
def count (ts : List Token) : Nat :=
  ts.countP (·.kind.isConditional)

theorem count_append (ts us : List Token) : count (ts ++ us) = count ts + count us :=
  List.countP_append

theorem count_cons {t : Token} (h : t.kind.isConditional) (ts : List Token) : count (t :: ts) = count ts + 1 :=
  List.countP_cons_of_pos h

def Quiet (ts : List Token) : Prop :=
  ∀ t ∈ ts, t.kind.isQuiet

theorem quiet_nil : Quiet [] := by
  simp [Quiet]

theorem Quiet.append {ts us : List Token} (h : Quiet ts) (h' : Quiet us) : Quiet (ts ++ us) :=
  List.forall_mem_append.2 ⟨h, h'⟩

theorem quiet_single {t : Token} {k : TokenKind} (ht : t.kind = k) (hk : k.isQuiet) : Quiet [t] :=
  List.forall_mem_singleton.2 (ht ▸ hk)

theorem Quiet.not_conditional {ts : List Token} (h : Quiet ts) {t : Token} (ht : t ∈ ts) :
    t.kind.isConditional = false := by
  have hq := h t ht
  cases hk : t.kind <;> rw [hk] at hq <;> first | rfl | cases hq

theorem Quiet.count_eq {ts : List Token} (h : Quiet ts) : count ts = 0 := by
  rw [count, List.countP_eq_zero]
  intro t ht
  simp [h.not_conditional ht]

theorem Quiet.amount_eq {ts : List Token} (h : Quiet ts) {k : TokenKind} (hk : k.isQuiet = false) :
    amount k ts = 0 := by
  refine amount_others fun t ht he => ?_
  have hq := h t ht
  rw [he, hk] at hq
  cases hq

/-! ## Blocks that are opened and closed -/

theorem prefix_append_cases {ts us pre : List Token} (h : pre <+: ts ++ us) :
    pre <+: ts ∨ ∃ mid, pre = ts ++ mid ∧ mid <+: us := by
  rcases List.prefix_or_prefix_of_prefix h (List.prefix_append ts us) with hp | ⟨mid, rfl⟩
  · exact .inl hp
  · exact .inr ⟨mid, rfl, (List.prefix_append_right_inj ts).1 h⟩

/-- All blocks that are opened are closed, and no others. -/
structure Balanced (ts : List Token) : Prop where
  opened : Opened ts
  closed : amount .dedent ts = amount .indent ts

theorem Balanced.append {ts us : List Token} (h : Balanced ts) (h' : Balanced us) : Balanced (ts ++ us) := by
  refine ⟨fun pre hp => ?_, by rw [amount_append, amount_append, h.closed, h'.closed]⟩
  rcases prefix_append_cases hp with hp | ⟨mid, rfl, hm⟩
  · exact h.opened pre hp
  · have hc := h.closed
    have ho := h'.opened mid hm
    rw [amount_append, amount_append]
    omega

theorem balanced_of_none {ts : List Token} (hi : amount .indent ts = 0) (hd : amount .dedent ts = 0) : Balanced ts := by
  refine ⟨fun pre hp => ?_, hd.trans hi.symm⟩
  have hl : amount .dedent pre ≤ amount .dedent ts := List.Sublist.countP_le hp.sublist
  omega

theorem Quiet.balanced {ts : List Token} (h : Quiet ts) : Balanced ts :=
  balanced_of_none (h.amount_eq rfl) (h.amount_eq rfl)

/-- Within a block more are open than outside of it. -/
theorem Balanced.inside {ts : List Token} (h : Balanced ts) {ns : List Token} (hn : Quiet ns) {i : Token}
    (hi : i.kind = .indent) {mid : List Token} (hm : mid <+: ts) :
    amount .dedent (ns ++ i :: mid) < amount .indent (ns ++ i :: mid) := by
  have ho := h.opened mid hm
  rw [List.append_cons, amount_append, amount_append, amount_append, amount_append, hn.amount_eq rfl,
    hn.amount_eq rfl, amount_single, amount_single, hi]
  simp only [reduceCtorEq, if_true, if_false]
  omega

theorem Balanced.block {ts : List Token} (h : Balanced ts) {ns : List Token} (hn : Quiet ns) {i d : Token}
    (hi : i.kind = .indent) (hd : d.kind = .dedent) : Balanced (ns ++ i :: (ts ++ [d])) := by
  have hc : amount .dedent (ns ++ i :: (ts ++ [d])) = amount .indent (ns ++ i :: (ts ++ [d])) := by
    have hb := h.closed
    have hj : ns ++ i :: (ts ++ [d]) = ns ++ [i] ++ ts ++ [d] := by simp
    simp only [hj, amount_append, hn.amount_eq (k := .dedent) rfl, hn.amount_eq (k := .indent) rfl, amount_single, hi,
      hd, reduceCtorEq, if_true, if_false]
    omega
  refine ⟨fun pre hp => ?_, hc⟩
  rcases prefix_append_cases hp with hp | ⟨mid, rfl, hm⟩
  · exact hn.balanced.opened pre hp
  · rcases List.prefix_cons_iff.1 hm with rfl | ⟨inner, rfl, hin⟩
    · rw [List.append_nil]
      exact hn.balanced.opened ns (List.prefix_refl ns)
    · rcases List.prefix_concat_iff.1 hin with rfl | hin
      · exact hc.le
      · exact (h.inside hn hi hin).le

/-! ## To which `if` an `else` belongs -/

/-- The `else` behind the tokens `pre` belongs to the `if` that stands before the last ones of them, `mid`. -/
def Belongs (ws : List Word) (pre mid : List Token) : Prop :=
  ws[count pre]? = some (.other (count mid + 1))

/-- Every `if` that stands outside of the blocks of some tokens has an `else` there; `base` comes before them. -/
def Answered (ws : List Word) (base ts : List Token) : Prop :=
  ∀ pre i post, ts = pre ++ i :: post → i.kind = .ifWord → amount .dedent pre = amount .indent pre →
    ∃ mid e rest, post = mid ++ e :: rest ∧ e.kind = .elseWord ∧ Belongs ws (base ++ pre ++ i :: mid) mid

/-- An `else` belongs to an `if`, with balanced tokens between them in which no other `if` waits for it. -/
structure Attached (ws : List Word) (base : List Token) (i : Token) (mid : List Token) : Prop where
  kind : i.kind = .ifWord
  belongs : Belongs ws (base ++ i :: mid) mid
  balanced : Balanced mid
  answered : Answered ws (base ++ [i]) mid

/-- The words are those of the tokens, and every `else` is attached to an `if`. -/
structure Matched (ws : List Word) (ts : List Token) : Prop where
  kinds : ws.map Word.kind = (ts.map Token.kind).filter TokenKind.isConditional
  attached : ∀ pre e post, ts = pre ++ e :: post → e.kind = .elseWord →
    ∃ base i mid, pre = base ++ i :: mid ∧ Attached ws base i mid

section

variable {ws ws' : List Word} {base ts ts' : List Token}

/-- A token among joined tokens is one of the first or one of the second. -/
theorem append_eq_mid {pre post : List Token} {t : Token} (h : ts ++ ts' = pre ++ t :: post) :
    (∃ mid, ts = pre ++ t :: mid ∧ post = mid ++ ts') ∨ ∃ mid, pre = ts ++ mid ∧ ts' = mid ++ t :: post := by
  rcases List.append_eq_append_iff.1 h with ⟨mid, rfl, h'⟩ | ⟨mid, rfl, h'⟩
  · exact .inr ⟨mid, rfl, h'⟩
  · cases mid with
    | nil => exact .inr ⟨[], by simp, h'.symm⟩
    | cons u mid =>
      cases h'
      exact .inl ⟨mid, rfl, rfl⟩

theorem single_eq_mid {pre post : List Token} {t u : Token} (h : [t] = pre ++ u :: post) : pre = [] ∧ u = t := by
  cases pre with
  | nil => exact ⟨rfl, (List.cons.inj h).1.symm⟩
  | cons v pre => cases pre <;> cases h

theorem Belongs.append {pre mid : List Token} (h : Belongs ws pre mid) (ws' : List Word) :
    Belongs (ws ++ ws') pre mid := by
  obtain ⟨hl, -⟩ := List.getElem?_eq_some_iff.1 h
  rw [Belongs, List.getElem?_append_left hl]
  exact h

theorem Belongs.behind {pre mid : List Token} (h : Belongs ws pre mid) (hl : ws'.length = count ts') :
    Belongs (ws' ++ ws) (ts' ++ pre) mid := by
  rw [Belongs, count_append, ← hl, List.getElem?_append_right (Nat.le_add_right _ _), Nat.add_sub_cancel_left]
  exact h

theorem Answered.append_words (h : Answered ws base ts) (ws' : List Word) : Answered (ws ++ ws') base ts := by
  intro pre i post he hi hc
  obtain ⟨mid, e, rest, hp, hk, hb⟩ := h pre i post he hi hc
  exact ⟨mid, e, rest, hp, hk, hb.append ws'⟩

theorem Answered.behind (h : Answered ws base ts) (hl : ws'.length = count ts') :
    Answered (ws' ++ ws) (ts' ++ base) ts := by
  intro pre i post he hi hc
  obtain ⟨mid, e, rest, hp, hk, hb⟩ := h pre i post he hi hc
  have hb := hb.behind hl
  simp only [← List.append_assoc] at hb
  exact ⟨mid, e, rest, hp, hk, hb⟩

theorem Answered.append (h : Answered ws base ts) (hc : amount .dedent ts = amount .indent ts)
    (h' : Answered ws (base ++ ts) ts') : Answered ws base (ts ++ ts') := by
  intro pre i post he hi hn
  rcases append_eq_mid he with ⟨mid, hts, rfl⟩ | ⟨mid, rfl, hts'⟩
  · obtain ⟨m, e, rest, rfl, hk, hb⟩ := h pre i mid hts hi hn
    exact ⟨m, e, rest ++ ts', by simp, hk, hb⟩
  · rw [amount_append, amount_append] at hn
    obtain ⟨m, e, rest, hp, hk, hb⟩ := h' mid i post hts' hi (by omega)
    rw [List.append_assoc base] at hb
    exact ⟨m, e, rest, hp, hk, hb⟩

theorem Quiet.answered (h : Quiet ts) (ws : List Word) (base : List Token) : Answered ws base ts := by
  intro pre i post he hi
  have hq := h i (by simp [he])
  rw [hi] at hq
  cases hq

theorem Attached.append_words {i : Token} {mid : List Token} (h : Attached ws base i mid) (ws' : List Word) :
    Attached (ws ++ ws') base i mid :=
  ⟨h.kind, h.belongs.append ws', h.balanced, h.answered.append_words ws'⟩

theorem Attached.behind {i : Token} {mid : List Token} (h : Attached ws base i mid) (hl : ws'.length = count ts') :
    Attached (ws' ++ ws) (ts' ++ base) i mid := by
  have hb := h.belongs.behind hl
  have ha := h.answered.behind hl
  rw [← List.append_assoc] at hb ha
  exact ⟨h.kind, hb, h.balanced, ha⟩

theorem Matched.length_eq (h : Matched ws ts) : ws.length = count ts := by
  have hl := congrArg List.length h.kinds
  rw [List.length_map] at hl
  rw [hl, count, List.countP_eq_length_filter, List.filter_map, List.length_map]
  rfl

theorem Matched.append (h : Matched ws ts) (h' : Matched ws' ts') : Matched (ws ++ ws') (ts ++ ts') := by
  refine ⟨by simp only [List.map_append, List.filter_append, h.kinds, h'.kinds], fun pre e post he hk => ?_⟩
  rcases append_eq_mid he with ⟨mid, hts, rfl⟩ | ⟨mid, rfl, hts'⟩
  · obtain ⟨base, i, m, hp, ha⟩ := h.attached pre e mid hts hk
    exact ⟨base, i, m, hp, ha.append_words ws'⟩
  · obtain ⟨base, i, m, rfl, ha⟩ := h'.attached mid e post hts' hk
    exact ⟨ts ++ base, i, m, by simp, ha.behind h.length_eq⟩

theorem Quiet.matched (h : Quiet ts) : Matched [] ts := by
  refine ⟨?_, fun pre e post he hk => ?_⟩
  · symm
    rw [List.map_nil, List.filter_eq_nil_iff]
    intro k hk
    obtain ⟨t, ht, rfl⟩ := List.mem_map.1 hk
    simp [h.not_conditional ht]
  · have hq := h e (by simp [he])
    rw [hk] at hq
    cases hq

/-- A token that is no `else`. -/
theorem matched_single {t : Token} {k : TokenKind} (ht : t.kind = k) (hk : k ≠ .elseWord)
    (hw : ws.map Word.kind = [k].filter TokenKind.isConditional) : Matched ws [t] := by
  refine ⟨by rw [List.map_singleton, ht, hw], fun pre e post he hk' => absurd hk' ?_⟩
  rw [(single_eq_mid he).2, ht]
  exact hk

end

/-! ## Parts of conditional statements -/

/-- The beginning of a conditional statement, before its body. -/
inductive Opening : List Token → Prop
  | intro {i : Token} {rest : List Token} (hi : i.kind = .ifWord) (hr : Quiet rest) : Opening (i :: rest)

/-- Statements: they are matched, and their blocks are closed. -/
structure Sound (ws : List Word) (ts : List Token) : Prop where
  matched : Matched ws ts
  balanced : Balanced ts

/-- Statements behind which no `else` can belong to an `if` among them. -/
structure Whole (ws : List Word) (ts : List Token) : Prop extends Sound ws ts where
  answered : Answered ws [] ts

section

variable {ws ws' : List Word} {us ts ts' : List Token} {e : Token}

theorem Sound.append (h : Sound ws ts) (h' : Sound ws' ts') : Sound (ws ++ ws') (ts ++ ts') :=
  ⟨h.matched.append h'.matched, h.balanced.append h'.balanced⟩

theorem Quiet.whole (h : Quiet ts) : Whole [] ts :=
  ⟨⟨h.matched, h.balanced⟩, h.answered [] []⟩

theorem Sound.append_quiet (h : Sound ws ts) (hq : Quiet ts') : Sound ws (ts ++ ts') := by
  have hs := h.append hq.whole.toSound
  rwa [List.append_nil] at hs

theorem Whole.append_quiet (h : Whole ws ts) (hq : Quiet ts') : Whole ws (ts ++ ts') :=
  ⟨h.toSound.append_quiet hq, h.answered.append h.balanced.closed (hq.answered ws _)⟩

/-- In a block no `if` stands outside of all blocks. -/
theorem Sound.block (h : Sound ws ts) {ns : List Token} (hn : Quiet ns) {i d : Token} (hi : i.kind = .indent)
    (hd : d.kind = .dedent) : Whole ws (ns ++ i :: (ts ++ [d])) := by
  have hmi : Matched [] [i] := matched_single hi (by decide) rfl
  have hmd : Matched [] [d] := matched_single hd (by decide) rfl
  have hm := hn.matched.append (hmi.append (h.matched.append hmd))
  rw [List.append_nil] at hm
  refine ⟨⟨hm, h.balanced.block hn hi hd⟩, fun pre t post he ht hc => ?_⟩
  exfalso
  rcases append_eq_mid he with ⟨mid, rfl, -⟩ | ⟨mid, rfl, hmid⟩
  · have hq := hn t (by simp)
    rw [ht] at hq
    cases hq
  · cases mid with
    | nil =>
      rw [← (List.cons.inj hmid).1, hi] at ht
      cases ht
    | cons u mid =>
      obtain ⟨rfl, hin⟩ := List.cons.inj hmid
      rcases append_eq_mid hin with ⟨rest, rfl, -⟩ | ⟨rest, rfl, hlast⟩
      · exact (h.balanced.inside hn hi (List.prefix_append mid _)).ne hc
      · rw [(single_eq_mid hlast).2, hd] at ht
        cases ht

theorem Opening.matched (h : Opening us) : Matched [.opens] us := by
  obtain ⟨hi, hr⟩ := h
  exact (@matched_single [.opens] _ _ hi (by decide) rfl).append hr.matched

theorem Opening.balanced (h : Opening us) : Balanced us := by
  obtain ⟨hi, hr⟩ := h
  rename_i i rest
  have hb : Balanced [i] := balanced_of_none (by rw [amount_single, hi]; rfl) (by rw [amount_single, hi]; rfl)
  exact hb.append hr.balanced

/-- A conditional statement without an `else`. -/
theorem Opening.when (h : Opening us) (hb : Sound ws ts) : Sound (.opens :: ws) (us ++ ts) :=
  Sound.append ⟨h.matched, h.balanced⟩ hb

/-- An `else` behind the body of a conditional statement belongs to its `if`. -/
theorem attached_else {i : Token} (hi : i.kind = .ifWord) {rest : List Token} (hr : Quiet rest) (hb : Whole ws ts)
    (ws' : List Word) : Attached (.opens :: (ws ++ .other (ws.length + 1) :: ws')) [] i (rest ++ ts) := by
  have hl := hb.matched.length_eq
  have hc : count (rest ++ ts) = ws.length := by rw [count_append, hr.count_eq, Nat.zero_add, hl]
  have ho : Word.opens :: (ws ++ .other (ws.length + 1) :: ws') = [.opens] ++ ws ++ .other (ws.length + 1) :: ws' := rfl
  refine ⟨hi, ?_, hr.balanced.append hb.balanced, ?_⟩
  · rw [Belongs, List.nil_append, count_cons (by rw [hi]; rfl), hc, List.getElem?_cons_succ,
      List.getElem?_append_right (Nat.le_refl _), Nat.sub_self, List.getElem?_cons_zero]
  · have hx : [Word.opens].length = count (i :: rest) := by rw [count_cons (by rw [hi]; rfl), hr.count_eq]; rfl
    have ha := (hb.answered.behind hx).append_words (.other (ws.length + 1) :: ws')
    rw [List.append_nil, ← ho] at ha
    exact (hr.answered _ _).append hr.balanced.closed ha

/-- A conditional statement up to its `else`. -/
theorem Opening.other (h : Opening us) (hb : Whole ws ts) (he : e.kind = .elseWord) :
    Sound (.opens :: (ws ++ [.other (ws.length + 1)])) (us ++ ts ++ [e]) := by
  have hw := h.when hb.toSound
  have hbe : Balanced [e] := balanced_of_none (by rw [amount_single, he]; rfl) (by rw [amount_single, he]; rfl)
  refine ⟨⟨?_, fun pre e' post heq hk => ?_⟩, hw.balanced.append hbe⟩
  · have hk : [Word.other (ws.length + 1)].map Word.kind = ([e].map Token.kind).filter TokenKind.isConditional := by
      rw [List.map_singleton, List.map_singleton, he]
      rfl
    rw [← List.cons_append, List.map_append, hw.matched.kinds, hk, ← List.filter_append, ← List.map_append]
  · rcases append_eq_mid heq with ⟨mid, hm, rfl⟩ | ⟨mid, rfl, hm⟩
    · obtain ⟨base, i, m, hp, ha⟩ := hw.matched.attached pre e' mid hm hk
      exact ⟨base, i, m, hp, ha.append_words _⟩
    · obtain ⟨rfl, -⟩ := single_eq_mid hm
      obtain ⟨hi, hr⟩ := h
      exact ⟨[], _, _, by simp, attached_else hi hr hb []⟩

/-- A whole conditional statement, and what it leaves open. -/
theorem Opening.choose (h : Opening us) (hb : Whole ws ts) (he : e.kind = .elseWord) (ho : Sound ws' ts') :
    Sound (.opens :: (ws ++ .other (ws.length + 1) :: ws')) (us ++ ts ++ [e] ++ ts') ∧
      (Answered ws' [] ts' →
        Answered (.opens :: (ws ++ .other (ws.length + 1) :: ws')) [] (us ++ ts ++ [e] ++ ts')) := by
  have hs := (h.other hb he).append ho
  have hj : .opens :: (ws ++ [.other (ws.length + 1)]) ++ ws' =
      Word.opens :: (ws ++ .other (ws.length + 1) :: ws') := by simp
  refine ⟨hj ▸ hs, fun ha => ?_⟩
  have hx := (h.other hb he).matched.length_eq
  have hy := (h.other hb he).balanced.closed
  have ha := ha.behind hx
  rw [List.append_nil, hj] at ha
  refine Answered.append ?_ hy ha
  obtain ⟨hi, hr⟩ := h
  rename_i i rest
  have hat := attached_else hi hr hb ws'
  intro pre j post heq hj hn
  cases pre with
  | nil =>
    cases heq
    exact ⟨rest ++ ts, e, [], by simp, he, hat.belongs⟩
  | cons u pre =>
    obtain ⟨rfl, htail⟩ := List.cons.inj heq
    rw [← List.singleton_append, amount_append, amount_append, amount_single, amount_single, hi] at hn
    simp only [reduceCtorEq, if_false, Nat.zero_add] at hn
    rcases append_eq_mid htail with ⟨mid, hm, rfl⟩ | ⟨mid, -, hm⟩
    · obtain ⟨m, e', more, rfl, hk, hbel⟩ := hat.answered pre j mid hm hj hn
      exact ⟨m, e', more ++ [e], by simp, hk, hbel⟩
    · rw [(single_eq_mid hm).2, he] at hj
      cases hj

end

end Conditional

end Pseudocode
