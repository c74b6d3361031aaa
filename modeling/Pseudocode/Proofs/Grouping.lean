import Pseudocode.Proofs.RoundTrip

/-!
# How factors group

A product is a chain of atoms with `*` and `/` between them. Atoms are numbers, strings, truth values, names and
expressions in parentheses, and any but the first may have a minus sign. The sign waits for all factors behind it, so a
chain nests to the left up to its first sign only. `grouped` is the tree that the reader makes of a chain, wherever it
stands (`feedAll_product`). It nests to the left all through exactly if no factor but the last has a sign
(`grouped_eq_foldl_iff`).

What the reader makes of an expression in parentheses does not depend on what is read around it (`ReadsApart`), so its
tree is the one that it has as a program of its own (`feedAll_inside`).
-/

namespace Pseudocode.Reader

open Grammar

/-! ## An expression reads alike wherever it stands -/

theorem settled_nil : Settled [] := trivial

/-- Operators that wait are settled alike on top of whatever frames. -/
theorem settle_append {P B : List Frame} (hP : Pending [] P) (hB : Settled B) (level : Nat) (e : Tree) (c : Bool) :
    settle level e c (P ++ B) =
      ((settle level e c P).1, (settle level e c P).2.1, (settle level e c P).2.2 ++ B) := by
  induction hP generalizing e c with
  | base => exact settle_settled hB level e c
  | negated _ ih =>
    rw [List.cons_append, settle, settle]
    split
    · exact ih _ _
    · rfl
  | left _ _ ih =>
    rw [List.cons_append, settle, settle]
    split
    · exact ih _ _
    · rfl

/-- The reader reads these tokens as an operand, and what it then has in wait depends on the operators that waited
before them only. -/
def ReadsApart (ts : List Token) : Prop :=
  ∀ P, Pending [] P → ∃ e P', Pending [] P' ∧
    ∀ r B, Settled B → TakesOperand r (P ++ B) → r.feedAll ts = .ok ⟨.operator e false, P' ++ B⟩

theorem readsApart_token {t : Token} {e : Tree} (h : ∀ F, operand t F = some ⟨.operator e false, F⟩) :
    ReadsApart [t] :=
  fun P hP => ⟨e, P, hP, fun _ B _ hr => feedAll_cons (hr t _ (h (P ++ B))) rfl⟩

theorem readsApart_negation {t : Token} {ts : List Token} (ht : t.kind = .minus) (h : ReadsApart ts) :
    ReadsApart (t :: ts) := by
  intro P hP
  obtain ⟨e, P', hP', h⟩ := h _ (.negated hP)
  refine ⟨e, P', hP', fun r B hB hr => ?_⟩
  have h₁ : r.feed t = some ⟨.operand, .negated :: (P ++ B)⟩ := hr t _ (by simp [operand, ht])
  exact feedAll_cons h₁ (h _ B hB (takesOperand _))

/-- The tokens are read as an expression with this tree wherever no operator waits. -/
def ReadsAs (ts : List Token) (e : Tree) (c : Bool) : Prop :=
  ∀ r B, Settled B → TakesOperand r B →
    ∃ r', r.feedAll ts = .ok r' ∧ ∀ t : Token, t.kind.level? = none → r'.feed t = conclude t e c B

/-- Where an expression ends, all that waits on top of the frames it began on is settled. -/
theorem ReadsApart.readsAs {ts : List Token} (h : ReadsApart ts) : ∃ e c, ReadsAs ts e c := by
  obtain ⟨e, P, hP, h⟩ := h [] .base
  obtain ⟨e', he⟩ := settle_zero settled_nil hP e false
  refine ⟨e', compared false P, fun r B hB hr => ⟨_, h r B hB hr, fun t ht => ?_⟩⟩
  simp only [feed, operator, ht, settle_append hP hB, he, List.nil_append]

/-- An expression up to the end of the parentheses it stands in. -/
theorem ReadsAs.inside {ts : List Token} {e : Tree} {c : Bool} (h : ReadsAs ts e c) {q : Token}
    (hq : q.kind = .rightParen) (F : List Frame) :
    feedAll ⟨.operand, .paren :: F⟩ (ts ++ [q]) = .ok ⟨.operator e false, F⟩ := by
  obtain ⟨r, hr, hc⟩ := h _ (.paren :: F) trivial (takesOperand _)
  have hf : r.feed q = some ⟨.operator e false, F⟩ := by
    rw [hc q (by rw [hq]; rfl), conclude, if_pos hq]
  exact feedAll_append hr (feedAll_cons hf rfl)

/-- An expression as a whole program. -/
theorem ReadsAs.programOf {ts : List Token} {e : Tree} {c : Bool} (h : ReadsAs ts e c) {t : Token}
    (ht : t.kind = .endMarker) : programOf (ts ++ [t]) = .ok [e] := by
  obtain ⟨r, hr, hc⟩ := h start [.program []] trivial takesOperand_start
  have hf : r.feed t = some ⟨.accepted, [.program [e]]⟩ := by
    rw [hc t (by rw [ht]; rfl)]
    simp [conclude, atStatement, ht]
  exact programOf_eq_ok.2 ⟨_, feedAll_append hr (feedAll_cons hf rfl), rfl⟩

theorem readsApart_group {p q : Token} {ts : List Token} (hp : p.kind = .leftParen) (hq : q.kind = .rightParen)
    (h : ReadsApart ts) : ReadsApart (p :: (ts ++ [q])) := by
  intro P hP
  obtain ⟨e, c, h⟩ := h.readsAs
  refine ⟨e, P, hP, fun r B hB hr => ?_⟩
  have h₁ : r.feed p = some ⟨.operand, .paren :: (P ++ B)⟩ := hr p _ (by simp [operand, hp])
  exact feedAll_cons h₁ (h.inside hq (P ++ B))

theorem readsApart_binary {t : Token} {l : Nat} {xs ys : List Token} (ht : t.kind.level? = some l)
    (hx : ReadsApart xs) (hy : ReadsApart ys) : ReadsApart (xs ++ t :: ys) := by
  intro P hP
  have hl : 0 < l := by rcases level_cases ht with h | h | h | h | h <;> omega
  obtain ⟨a, P₁, hP₁, hx⟩ := hx P hP
  have hP₂ : Pending [] (.left t.payload.string l (settle l a false P₁).1 :: (settle l a false P₁).2.2) :=
    .left hl (settle_pending settled_nil hP₁ hl a false).1
  obtain ⟨b, P₃, hP₃, hy⟩ := hy _ hP₂
  refine ⟨b, P₃, hP₃, fun r B hB hr => ?_⟩
  have h₂ : feed ⟨.operator a false, P₁ ++ B⟩ t =
      some ⟨.operand, .left t.payload.string l (settle l a false P₁).1 :: ((settle l a false P₁).2.2 ++ B)⟩ := by
    simp only [feed, operator, ht, settle_append hP₁ hB]
  exact feedAll_append (hx r B hB hr) (feedAll_cons h₂ (hy _ B hB (takesOperand _)))

/-- What holds of the tokens of a symbol: they read apart if they are an expression. -/
def ApartPiece : Sym → List Token → Prop
  | .terminal k, ts => ∃ t, t.kind = k ∧ ts = [t]
  | .nonterminal .expression, ts => ReadsApart ts
  | .nonterminal .comparison, ts => ReadsApart ts
  | .nonterminal _, _ => True

theorem apart_rule (r : Rule) (us : List (List Token)) (h : List.Forall₂ ApartPiece r.right us) :
    ApartPiece (part r.left) us.flatten := by
  cases r with
  | sum | difference =>
    obtain _ | ⟨hx, _ | ⟨⟨t, ht, rfl⟩, _ | ⟨hy, _ | _⟩⟩⟩ := h
    have hl : t.kind.level? = some 2 := by rw [ht]; rfl
    simpa [Rule.left, ApartPiece] using readsApart_binary hl hx hy
  | product | quotient =>
    obtain _ | ⟨hx, _ | ⟨⟨t, ht, rfl⟩, _ | ⟨hy, _ | _⟩⟩⟩ := h
    have hl : t.kind.level? = some 3 := by rw [ht]; rfl
    simpa [Rule.left, ApartPiece] using readsApart_binary hl hx hy
  | comparison =>
    obtain _ | ⟨hx, _ | ⟨⟨t, ht, rfl⟩, _ | ⟨hy, _ | _⟩⟩⟩ := h
    have hl : t.kind.level? = some 1 := by rw [ht]; rfl
    simpa [Rule.left, ApartPiece] using readsApart_binary hl hx hy
  | negation =>
    obtain _ | ⟨⟨t, ht, rfl⟩, _ | ⟨he, _ | _⟩⟩ := h
    simpa [Rule.left, ApartPiece] using readsApart_negation ht he
  | number | string | name | truth =>
    obtain _ | ⟨⟨t, ht, rfl⟩, _ | _⟩ := h
    exact readsApart_token fun F => by simp only [operand, ht]; rfl
  | group =>
    obtain _ | ⟨⟨p, hp, rfl⟩, _ | ⟨he, _ | ⟨⟨q, hq, rfl⟩, _ | _⟩⟩⟩ := h
    simpa [Rule.left, ApartPiece] using readsApart_group hp hq he
  | compared =>
    obtain _ | ⟨hc, _ | _⟩ := h
    simpa [Rule.left, ApartPiece] using hc
  | _ => exact trivial

theorem readsApart_of_yields {ts : List Token} {v : Tree} (h : Yields .expression ts v) : ReadsApart ts := by
  obtain ⟨us, rfl, hu⟩ := h.forall_pieces (fun t => ⟨t, rfl, rfl⟩ : ∀ t, ApartPiece (tok t.kind) [t]) apart_rule
  obtain _ | ⟨ha, _ | _⟩ := hu
  simpa [ApartPiece] using ha

/-! ## Atoms -/

/-- An atom and its tree. What stands in parentheses is an expression of the grammar, and it has the tree that it has as
a program. -/
inductive Atom : List Token → Tree → Prop
  | number {t : Token} (h : t.kind = .number) : Atom [t] t.payload.tree
  | string {t : Token} (h : t.kind = .string) : Atom [t] t.payload.tree
  | truth {t : Token} (h : t.kind = .truth) : Atom [t] (.bool (t.payload.string == "True"))
  | name {t : Token} (h : t.kind = .name) : Atom [t] (.name t.payload.string)
  | group {p q : Token} (hp : p.kind = .leftParen) (hq : q.kind = .rightParen) {ts : List Token} {v e : Tree}
      (hv : Yields .expression ts v) (he : programOf (ts ++ [endMarker none]) = .ok [e]) : Atom (p :: (ts ++ [q])) e

/-- Every expression is a program, and in parentheses it has the tree that it has as a program. -/
theorem feedAll_inside {ts : List Token} {v : Tree} (hv : Yields .expression ts v) :
    ∃ e, programOf (ts ++ [endMarker none]) = .ok [e] ∧
      ∀ (q : Token) (F : List Frame), q.kind = .rightParen →
        feedAll ⟨.operand, .paren :: F⟩ (ts ++ [q]) = .ok ⟨.operator e false, F⟩ := by
  obtain ⟨e, c, h⟩ := (readsApart_of_yields hv).readsAs
  exact ⟨e, h.programOf rfl, fun q F hq => h.inside hq F⟩

/-- An atom is read as its tree wherever an operand is, whatever waits for it. -/
theorem Atom.feedAll {ts : List Token} {e : Tree} (h : Atom ts e) {r : Reader} {F : List Frame}
    (hr : TakesOperand r F) : r.feedAll ts = .ok ⟨.operator e false, F⟩ := by
  cases h with
  | number h | string h | truth h | name h => exact feedAll_cons (hr _ _ (by simp [operand, h])) rfl
  | @group p q hp hq ts v e hv he =>
    obtain ⟨e', he', hi⟩ := feedAll_inside hv
    rw [he] at he'
    cases he'
    exact feedAll_cons (hr p _ (by simp [operand, hp])) (hi q F hq)

/-! ## Chains of factors -/

/-- A factor behind the first one: its operator, a minus sign or none, and an atom with its tree. -/
structure Factor where
  sign : Token
  minus : Option Token
  atom : List Token
  tree : Tree
  sign_kind : sign.kind = .times ∨ sign.kind = .divide
  minus_kind : ∀ t ∈ minus, t.kind = .minus
  isAtom : Atom atom tree

namespace Factor

def tokens (x : Factor) : List Token :=
  x.sign :: (x.minus.toList ++ x.atom)

/-- The operand that a factor is by itself. -/
def operand (x : Factor) : Tree :=
  if x.minus.isSome then negate x.tree else x.tree

/-- A factor applied to what stands before it. -/
def apply (a : Tree) (x : Factor) : Tree :=
  .operation x.sign.payload.string [a, x.operand]

theorem sign_level (x : Factor) : x.sign.kind.level? = some 3 := by
  rcases x.sign_kind with h | h <;> rw [h] <;> rfl

end Factor

/-- The tree of a chain: factors without a sign are applied one by one, and a minus sign takes in all factors behind
it. -/
def grouped : Tree → List Factor → Tree
  | e, [] => e
  | e, x :: xs =>
    match x.minus with
    | none => grouped (x.apply e) xs
    | some _ => .operation x.sign.payload.string [e, negate (grouped x.tree xs)]

/-- No product waits on top of some frames for its right operand. -/
def Loose : List Frame → Prop
  | .left _ l _ :: _ => l < 3
  | _ => True

theorem Settled.loose {F : List Frame} (h : Settled F) : Loose F := by
  unfold Loose
  split
  · exact absurd h id
  · trivial

theorem settle_loose {F : List Frame} (h : Loose F) (e : Tree) (c : Bool) : settle 3 e c F = (e, c, F) := by
  unfold settle
  split
  · rw [if_neg (by decide)]
  · rw [if_neg (Nat.not_le_of_lt h)]
  · rfl

theorem feed_product {t : Token} (ht : t.kind.level? = some 3) (a : Tree) {F : List Frame} (hF : Loose F) :
    feed ⟨.operator a false, F⟩ t = some ⟨.operand, .left t.payload.string 3 a :: F⟩ := by
  simp only [feed, operator, ht, settle_loose hF]

theorem level_le {k : TokenKind} {l : Nat} (h : k.level? = some l) : l ≤ 3 := by
  rcases level_cases h with h | h | h | h | h <;> omega

/-- A product in wait is settled by every token behind its right operand. -/
theorem feed_behind_product (op : String) (a b : Tree) (F : List Frame) (t : Token) :
    feed ⟨.operator b false, .left op 3 a :: F⟩ t = feed ⟨.operator (.operation op [a, b]) false, F⟩ t := by
  have hs (l : Nat) (hl : l ≤ 3) :
      settle l b false (.left op 3 a :: F) = settle l (.operation op [a, b]) false F := by
    rw [settle, if_pos hl]
    rfl
  simp only [feed, operator]
  split
  · rw [hs _ (level_le ‹_›)]
  · rw [hs 0 (by decide)]

/-- A minus sign in wait is settled by every token but `*` and `/`. -/
theorem feed_behind_negated (b : Tree) (F : List Frame) {t : Token} (ht : t.kind.level? ≠ some 3) :
    feed ⟨.operator b false, .negated :: F⟩ t = feed ⟨.operator (negate b) false, F⟩ t := by
  have hs (l : Nat) (hl : l ≤ 2) : settle l b false (.negated :: F) = settle l (negate b) false F := by
    rw [settle, if_pos hl]
  simp only [feed, operator]
  split
  · rename_i l hl
    have hne : l ≠ 3 := fun h => ht (h ▸ hl)
    have hle := level_le hl
    rw [hs l (by omega)]
  · rw [hs 0 (by decide)]

/-- Behind the factors the reader goes on as behind an operand that is the whole chain. -/
theorem feedAll_factors (xs : List Factor) {e : Tree} {F : List Frame} (hF : Loose F) {r : Reader}
    (hr : ∀ t, r.feed t = feed ⟨.operator e false, F⟩ t) :
    ∃ r', r.feedAll (xs.flatMap Factor.tokens) = .ok r' ∧
      ∀ t : Token, t.kind.level? ≠ some 3 → r'.feed t = feed ⟨.operator (grouped e xs) false, F⟩ t := by
  induction xs generalizing e F r with
  | nil => exact ⟨r, rfl, fun t _ => hr t⟩
  | cons x xs ih =>
    rw [List.flatMap_cons, Factor.tokens]
    have h₁ : r.feed x.sign = some ⟨.operand, .left x.sign.payload.string 3 e :: F⟩ := by
      rw [hr, feed_product x.sign_level e hF]
    cases hm : x.minus with
    | none =>
      have h₂ := x.isAtom.feedAll (takesOperand (.left x.sign.payload.string 3 e :: F))
      have he : x.apply e = .operation x.sign.payload.string [e, x.tree] := by
        simp [Factor.apply, Factor.operand, hm]
      have hb (t : Token) : feed ⟨.operator x.tree false, .left x.sign.payload.string 3 e :: F⟩ t =
          feed ⟨.operator (x.apply e) false, F⟩ t := by
        rw [he, feed_behind_product]
      obtain ⟨r', h₃, hr'⟩ := ih hF hb
      refine ⟨r', feedAll_cons h₁ (feedAll_append h₂ h₃), ?_⟩
      simpa only [grouped, hm] using hr'
    | some m =>
      have h₂ : feed ⟨.operand, .left x.sign.payload.string 3 e :: F⟩ m =
          some ⟨.operand, .negated :: .left x.sign.payload.string 3 e :: F⟩ := by
        simp [feed, Reader.operand, x.minus_kind m hm]
      have h₃ := x.isAtom.feedAll (takesOperand (.negated :: .left x.sign.payload.string 3 e :: F))
      -- On top of the sign no product waits, so the factors behind it are a chain of their own.
      obtain ⟨r', h₄, hr'⟩ := ih (e := x.tree) (F := .negated :: .left x.sign.payload.string 3 e :: F) trivial
        fun _ => rfl
      refine ⟨r', feedAll_cons h₁ (feedAll_cons h₂ (feedAll_append h₃ h₄)), fun t ht => ?_⟩
      rw [hr' t ht, feed_behind_negated _ _ ht, feed_behind_product]
      simp only [grouped, hm]

/-- A chain is read as its tree wherever an operand is, unless a product waits for it. -/
theorem feedAll_product {ts : List Token} {e : Tree} (h : Atom ts e) (xs : List Factor) {r : Reader} {F : List Frame}
    (hr : TakesOperand r F) (hF : Loose F) :
    ∃ r', r.feedAll (ts ++ xs.flatMap Factor.tokens) = .ok r' ∧
      ∀ t : Token, t.kind.level? ≠ some 3 → r'.feed t = feed ⟨.operator (grouped e xs) false, F⟩ t := by
  obtain ⟨r', h', hr'⟩ := feedAll_factors xs (e := e) hF fun _ => rfl
  exact ⟨r', feedAll_append (h.feedAll hr) h', hr'⟩

/-! ## Nesting to the left -/

theorem Factor.size_lt (x : Factor) (e : Tree) : e.size < (x.apply e).size := by
  simp only [apply, Tree.size, Tree.sizeAll]
  omega

theorem size_le_foldl (xs : List Factor) (e : Tree) : e.size ≤ (xs.foldl Factor.apply e).size := by
  induction xs generalizing e with
  | nil => exact Nat.le_refl _
  | cons x xs ih => exact Nat.le_trans (Nat.le_of_lt (x.size_lt e)) (ih _)

/-- A left operand of a chain that nests to the left is never the first factor alone, if there are two more. -/
theorem foldl_ne (x : Factor) {xs : List Factor} (hx : xs ≠ []) (e b : Tree) (op : String) :
    xs.foldl Factor.apply (x.apply e) ≠ .operation op [e, b] := by
  intro h
  obtain rfl | ⟨ys, y, rfl⟩ := List.eq_nil_or_concat xs
  · exact hx rfl
  rw [List.concat_eq_append, List.foldl_append] at h
  -- The last factor is applied to the chain before it, which is larger than `e`.
  have he : ys.foldl Factor.apply (x.apply e) = e := by
    injection h with _ h
    injection h
  have hlt := x.size_lt e
  have hle := size_le_foldl ys (x.apply e)
  rw [he] at hle
  omega

/-- The tree of a chain nests to the left exactly if no factor but the last has a minus sign. -/
theorem grouped_eq_foldl_iff (xs : List Factor) (e : Tree) :
    grouped e xs = xs.foldl Factor.apply e ↔ ∀ x ∈ xs.dropLast, x.minus = none := by
  induction xs generalizing e with
  | nil => simp [grouped]
  | cons x xs ih =>
    by_cases hx : xs = []
    · subst hx
      cases hm : x.minus <;> simp [grouped, Factor.apply, Factor.operand, hm]
    rw [List.foldl_cons, List.dropLast_cons_of_ne_nil hx, List.forall_mem_cons]
    cases hm : x.minus with
    | none => simpa only [grouped, hm, true_and] using ih (x.apply e)
    | some m =>
      simp only [grouped, hm, reduceCtorEq, false_and, iff_false]
      exact (foldl_ne x hx e _ _).symm

/-- A chain of factors with `*` and `/` between them reads as `grouped` says, by itself and wherever else an operand
stands for which no product waits. That is the tree that nests to the left exactly if no factor but the last has a minus
sign. -/
theorem programOf_product {ts : List Token} {e : Tree} (h : Atom ts e) (xs : List Factor) :
    (∀ t : Token, t.kind = .endMarker → programOf (ts ++ xs.flatMap Factor.tokens ++ [t]) = .ok [grouped e xs]) ∧
      (∀ r F, TakesOperand r F → Loose F → ∃ r', r.feedAll (ts ++ xs.flatMap Factor.tokens) = .ok r' ∧
        ∀ t : Token, t.kind.level? ≠ some 3 → r'.feed t = feed ⟨.operator (grouped e xs) false, F⟩ t) ∧
      (grouped e xs = xs.foldl Factor.apply e ↔ ∀ x ∈ xs.dropLast, x.minus = none) := by
  refine ⟨fun t ht => ?_, fun r F hr hF => feedAll_product h xs hr hF, grouped_eq_foldl_iff xs e⟩
  have hs : ReadsAs (ts ++ xs.flatMap Factor.tokens) (grouped e xs) false := by
    intro r B hB hr
    obtain ⟨r', hr', hf⟩ := feedAll_product h xs hr hB.loose
    refine ⟨r', hr', fun t hl => ?_⟩
    rw [hf t (by rw [hl]; decide)]
    simp only [feed, operator, hl, settle_settled hB]
  exact hs.programOf ht

/-- The factors behind the first one of `6 / -(a + 1) * 3`. -/
def signed : List Factor :=
  let inside : List Token := [⟨.name, .text "a", 1, 6⟩, ⟨.plus, .text "+", 1, 8⟩, ⟨.number, .whole 1, 1, 10⟩]
  have hv : Yields .expression inside (.operation "+" [.name "a", .int 1]) :=
    .of_rule .sum (.rule .name (.token _ rfl .nil) (.token _ rfl (.rule .number (.token _ rfl .nil) .nil)))
  [{ sign := ⟨.divide, .text "/", 1, 2⟩
     minus := some ⟨.minus, .text "-", 1, 4⟩
     atom := ⟨.leftParen, .text "(", 1, 5⟩ :: (inside ++ [⟨.rightParen, .text ")", 1, 11⟩])
     tree := .operation "+" [.name "a", .int 1]
     sign_kind := .inr rfl
     minus_kind := fun _ h => by cases h; rfl
     isAtom := .group rfl rfl hv rfl },
   { sign := ⟨.times, .text "*", 1, 13⟩
     minus := none
     atom := [⟨.number, .whole 3, 1, 15⟩]
     tree := .int 3
     sign_kind := .inl rfl
     minus_kind := fun _ h => by cases h
     isAtom := .number rfl }]

theorem programOf_product_signed :
    programOf (⟨.number, .whole 6, 1, 0⟩ :: (signed.flatMap Factor.tokens ++ [endMarker none])) =
        .ok [.operation "/" [.int 6, negate (.operation "*" [.operation "+" [.name "a", .int 1], .int 3])]] ∧
      grouped (.int 6) signed ≠ signed.foldl Factor.apply (.int 6) := by
  obtain ⟨hp, -, hg⟩ := programOf_product (.number (t := ⟨.number, .whole 6, 1, 0⟩) rfl) signed
  refine ⟨hp (endMarker none) rfl, fun he => ?_⟩
  have hm := hg.1 he _ (List.mem_cons_self ..)
  cases hm

/-- A sign on the divisor takes in the factor behind it, which the chain by its operators alone would be multiplied
with. -/
theorem readProgram_quotient_signed :
    readProgram "1 / -2 * 3" = .ok [.operation "/" [.int 1, negate (.operation "*" [.int 2, .int 3])]] ∧
      readProgram "1 / -2 * 3" ≠ .ok [.operation "*" [.operation "/" [.int 1, negate (.int 2)], .int 3]] := by
  have h : readProgram "1 / -2 * 3" = .ok [.operation "/" [.int 1, negate (.operation "*" [.int 2, .int 3])]] := by
    cbv
  refine ⟨h, ?_⟩
  rw [h]
  simp [negate]

end Pseudocode.Reader
