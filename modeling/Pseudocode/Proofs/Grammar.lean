import Mathlib.Computability.ContextFreeGrammar
import Pseudocode.Tree.Grammar
import Pseudocode.Tree.Reader
/-!
# The grammar of programs

`Rule.left` and `Rule.right` say which part of a program a rule makes and of what. The grammar leaves choices
open: a program can have several derivations, and they can build different trees.

`Parses ss ts vs` says that the tokens `ts` fall into pieces that derive the symbols `ss` one by one, and that
the rules of these derivations build the values `vs`. `derives_iff` shows that such pieces exist exactly when
the symbols can be rewritten into the kinds of the tokens.
-/

namespace Pseudocode.Grammar

/-- A kind of token or a part. -/
abbrev Sym := Symbol TokenKind Part

abbrev tok (k : TokenKind) : Sym := .terminal k

abbrev part (p : Part) : Sym := .nonterminal p

namespace Rule

def all : List Rule :=
  [input, programNewline, programCommand, programFirst, programExpression, command, stmtNewline, stmtBare,
    stmtsMore, stmtsOne, blockIndented, blockInline, assign, when, choose, give, print, printEmpty, jump, mark,
    sum, difference, product, quotient, negation, number, string, name, truth, group, compared, comparison]

theorem mem_all (r : Rule) : r ∈ all := by
  cases r <;> decide

/-- What a rule makes its part of. -/
def right : Rule → List Sym
  | input => [part .program, tok .endMarker]
  | programNewline => [part .program, tok .newline]
  | programCommand => [part .program, part .command]
  | programFirst => [part .command]
  | programExpression => [part .expression]
  | command => [part .stmt]
  | stmtNewline => [part .statement, tok .newline]
  | stmtBare => [part .statement]
  | stmtsMore => [part .stmts, part .stmt]
  | stmtsOne => [part .stmt]
  | blockIndented => [tok .newline, tok .indent, part .stmts, tok .dedent]
  | blockInline => [part .stmt]
  | assign => [tok .letWord, tok .name, tok .beWord, part .expression]
  | when => [tok .ifWord, part .comparison, tok .comma, tok .thenWord, part .block]
  | choose =>
    [tok .ifWord, part .comparison, tok .comma, tok .thenWord, part .block, tok .elseWord, part .block]
  | give => [tok .returnWord, part .expression]
  | print => [tok .printWord, part .expression]
  | printEmpty => [tok .printWord]
  | jump => [tok .gotoWord, tok .instructionWord, tok .number]
  | mark => [tok .marker, tok .number]
  | sum => [part .expression, tok .plus, part .expression]
  | difference => [part .expression, tok .minus, part .expression]
  | product => [part .expression, tok .times, part .expression]
  | quotient => [part .expression, tok .divide, part .expression]
  | negation => [tok .minus, part .expression]
  | number => [tok .number]
  | string => [tok .string]
  | name => [tok .name]
  | truth => [tok .truth]
  | group => [tok .leftParen, part .expression, tok .rightParen]
  | compared => [part .comparison]
  | comparison => [part .expression, tok .comparison, part .expression]

theorem length_right (r : Rule) : r.right.length = r.size := by
  cases r <;> rfl

end Rule

/-- The grammar without the trees. -/
def grammar : ContextFreeGrammar TokenKind where
  NT := Part
  initial := .input
  rules := (Rule.all.map fun r => ⟨r.left, r.right⟩).toFinset

/-- Tokens that fall into pieces for symbols, with the values that the derivations build. -/
inductive Parses : List Sym → List Token → List Tree → Prop
  | nil : Parses [] [] []
  | token {k ss ts vs} (t : Token) (hk : t.kind = k) (h : Parses ss ts vs) :
      Parses (tok k :: ss) (t :: ts) (t.payload.tree :: vs)
  | rule {us ws ss ts vs} (r : Rule) (hr : Parses r.right us ws) (h : Parses ss ts vs) :
      Parses (part r.left :: ss) (us ++ ts) (r.build ws :: vs)

/-- Tokens that derive from a part, with the tree that the derivation builds. -/
abbrev Yields (p : Part) (ts : List Token) (v : Tree) : Prop :=
  Parses [part p] ts [v]

/-! ## Derivations put together and taken apart -/

theorem Parses.append {ss ss' : List Sym} {ts ts' : List Token} {vs vs' : List Tree}
    (h : Parses ss ts vs) (h' : Parses ss' ts' vs') : Parses (ss ++ ss') (ts ++ ts') (vs ++ vs') := by
  induction h with
  | nil => exact h'
  | token t hk _ ih => exact .token t hk ih
  | rule r hr _ _ ih =>
    rw [List.append_assoc]
    exact .rule r hr ih

/-- A rule applied to what its right side derives. -/
theorem Yields.of_rule (r : Rule) {ts : List Token} {vs : List Tree} (h : Parses r.right ts vs) :
    Yields r.left ts (r.build vs) := by
  have := Parses.rule r h .nil
  rwa [List.append_nil] at this

theorem parses_nil_iff {ts : List Token} {vs : List Tree} : Parses [] ts vs ↔ ts = [] ∧ vs = [] := by
  constructor
  · intro h; cases h; exact ⟨rfl, rfl⟩
  · rintro ⟨rfl, rfl⟩; exact .nil

theorem parses_tok_iff {k : TokenKind} {ss : List Sym} {ts : List Token} {vs : List Tree} :
    Parses (tok k :: ss) ts vs ↔
      ∃ t ts' vs', t.kind = k ∧ ts = t :: ts' ∧ vs = t.payload.tree :: vs' ∧ Parses ss ts' vs' := by
  constructor
  · intro h
    cases h with
    | token t hk h => exact ⟨t, _, _, hk, rfl, rfl, h⟩
  · rintro ⟨t, ts', vs', hk, rfl, rfl, h⟩
    exact .token t hk h

theorem parses_part_iff {p : Part} {ss : List Sym} {ts : List Token} {vs : List Tree} :
    Parses (part p :: ss) ts vs ↔
      ∃ us ts' v vs', Yields p us v ∧ ts = us ++ ts' ∧ vs = v :: vs' ∧ Parses ss ts' vs' := by
  constructor
  · intro h
    cases h with
    | rule r hr h => exact ⟨_, _, _, _, .of_rule r hr, rfl, rfl, h⟩
  · rintro ⟨us, ts', v, vs', hv, rfl, rfl, h⟩
    exact Parses.append hv h

theorem Parses.split {ss ss' : List Sym} {ts : List Token} {vs : List Tree} (h : Parses (ss ++ ss') ts vs) :
    ∃ us us' ws ws', ts = us ++ us' ∧ vs = ws ++ ws' ∧ Parses ss us ws ∧ Parses ss' us' ws' := by
  induction ss generalizing ts vs with
  | nil => exact ⟨[], ts, [], vs, rfl, rfl, .nil, h⟩
  | cons s ss ih =>
    cases s with
    | terminal k =>
      obtain ⟨t, ts', vs', hk, rfl, rfl, h'⟩ := parses_tok_iff.1 h
      obtain ⟨us, us', ws, ws', rfl, rfl, h1, h2⟩ := ih h'
      exact ⟨t :: us, us', _ :: ws, ws', rfl, rfl, .token t hk h1, h2⟩
    | nonterminal p =>
      obtain ⟨xs, ts', v, vs', hv, rfl, rfl, h'⟩ := parses_part_iff.1 h
      obtain ⟨us, us', ws, ws', rfl, rfl, h1, h2⟩ := ih h'
      exact ⟨xs ++ us, us', v :: ws, ws', by simp, rfl, Parses.append hv h1, h2⟩

/-- What every rule keeps holds of all values built, once it holds of the tokens. -/
theorem Parses.forall_values {I : Sym → Tree → Prop}
    (hr : ∀ (r : Rule) (ws : List Tree), List.Forall₂ I r.right ws → I (part r.left) (r.build ws))
    {ss : List Sym} {ts : List Token} {vs : List Tree} (h : Parses ss ts vs)
    (ht : ∀ t ∈ ts, I (tok t.kind) t.payload.tree) : List.Forall₂ I ss vs := by
  induction h with
  | nil => exact .nil
  | token t hk _ ih =>
    subst hk
    exact .cons (ht t (by simp)) (ih fun u hu => ht u (by simp [hu]))
  | rule r _ _ ihr ih =>
    refine .cons (hr r _ (ihr fun u hu => ht u (by simp [hu]))) (ih fun u hu => ht u (by simp [hu]))

/-- What every rule keeps holds of the tokens of all parts, once it holds of every single token. -/
theorem Parses.forall_pieces {J : Sym → List Token → Prop} (ht : ∀ t : Token, J (tok t.kind) [t])
    (hr : ∀ (r : Rule) (us : List (List Token)), List.Forall₂ J r.right us → J (part r.left) us.flatten)
    {ss : List Sym} {ts : List Token} {vs : List Tree} (h : Parses ss ts vs) :
    ∃ us : List (List Token), ts = us.flatten ∧ List.Forall₂ J ss us := by
  induction h with
  | nil => exact ⟨[], rfl, .nil⟩
  | token t hk _ ih =>
    subst hk
    obtain ⟨us, rfl, h⟩ := ih
    exact ⟨[t] :: us, rfl, .cons (ht t) h⟩
  | rule r _ _ ihr ih =>
    obtain ⟨us, rfl, hu⟩ := ihr
    obtain ⟨ws, rfl, hw⟩ := ih
    exact ⟨us.flatten :: ws, rfl, .cons (hr r us hu) hw⟩

/-! ## Derivations and rewriting -/

theorem mem_rules {x : ContextFreeRule TokenKind Part} :
    x ∈ grammar.rules ↔ ∃ r : Rule, x = ⟨r.left, r.right⟩ := by
  unfold grammar
  rw [List.mem_toFinset, List.mem_map]
  exact ⟨fun ⟨r, _, h⟩ => ⟨r, h.symm⟩, fun ⟨r, h⟩ => ⟨r, r.mem_all, h.symm⟩⟩

theorem produces_of_rule (r : Rule) : grammar.Produces [part r.left] r.right := by
  refine ⟨⟨r.left, r.right⟩, mem_rules.2 ⟨r, rfl⟩, ?_⟩
  exact ContextFreeRule.Rewrites.input_output

/-- The symbols of a token list. -/
def symbols (ts : List Token) : List Sym := ts.map fun t => tok t.kind

theorem symbols_append (us ts : List Token) : symbols (us ++ ts) = symbols us ++ symbols ts := by
  simp [symbols]

theorem derives_of_parses {ss : List Sym} {ts : List Token} {vs : List Tree} (h : Parses ss ts vs) :
    grammar.Derives ss (symbols ts) := by
  induction h with
  | nil => exact .refl _
  | token t hk _ ih =>
    subst hk
    exact ih.append_left [tok t.kind]
  | @rule us ws ss ts vs r _ _ ihr ih =>
    have h1 : grammar.Derives [part r.left] (symbols us) := (produces_of_rule r).trans_derives ihr
    have h2 : grammar.Derives (part r.left :: ss) (symbols us ++ symbols ts) :=
      (h1.append_right ss).trans (ih.append_left (symbols us))
    rwa [← symbols_append] at h2

theorem parses_symbols (ts : List Token) : Parses (symbols ts) ts (ts.map fun t => t.payload.tree) := by
  induction ts with
  | nil => exact .nil
  | cons t ts ih => exact .token t rfl ih

theorem parses_of_produces {ss ss' : List Sym} {ts : List Token} {vs : List Tree}
    (hp : grammar.Produces ss ss') (h : Parses ss' ts vs) : ∃ vs', Parses ss ts vs' := by
  obtain ⟨x, hx, hr⟩ := hp
  obtain ⟨r, rfl⟩ := mem_rules.1 hx
  obtain ⟨a, b, rfl, rfl⟩ := hr.exists_parts
  obtain ⟨us, us', ws, ws', rfl, rfl, h1, h3⟩ := h.split
  obtain ⟨xs, ys, ws1, ws2, rfl, rfl, h1, h2⟩ := h1.split
  exact ⟨_, (h1.append (Yields.of_rule r h2)).append h3⟩

/-- Symbols rewrite into the kinds of tokens exactly when the tokens parse as these symbols. -/
theorem derives_iff {ss : List Sym} {ts : List Token} :
    grammar.Derives ss (symbols ts) ↔ ∃ vs, Parses ss ts vs := by
  constructor
  · intro h
    -- From the end of the rewriting, where the symbols are those of the tokens, back to its start.
    induction h using Relation.ReflTransGen.head_induction_on with
    | refl => exact ⟨_, parses_symbols ts⟩
    | head hp _ ih =>
      obtain ⟨vs, h⟩ := ih
      exact parses_of_produces hp h
  · rintro ⟨vs, h⟩
    exact derives_of_parses h

/-- The grammar generates the kinds of exactly the tokens that parse as a whole program. -/
theorem mem_language_iff_yields {ts : List Token} :
    ts.map Token.kind ∈ grammar.language ↔ ∃ v, Yields .input ts v := by
  have e : (ts.map Token.kind).map Symbol.terminal = symbols ts := by simp [symbols]
  have hd : ts.map Token.kind ∈ grammar.language ↔ grammar.Derives [part .input] (symbols ts) := by
    rw [← e]; rfl
  refine (hd.trans derives_iff).trans ⟨?_, ?_⟩
  · rintro ⟨vs, h⟩
    obtain ⟨us, ts', v, vs', hv, rfl, rfl, h'⟩ := parses_part_iff.1 h
    obtain ⟨rfl, rfl⟩ := parses_nil_iff.1 h'
    exact ⟨v, h⟩
  · rintro ⟨v, h⟩
    exact ⟨[v], h⟩

end Pseudocode.Grammar
