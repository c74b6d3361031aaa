import Mathlib.Logic.Relation
import Pseudocode.Tree.Tables

/-!
# Reductions before a token

Before a parser with tables shifts a token, it reduces. `Reduces k σ σ'` says that it can come from one stack to another
so, with a token of kind `k` ahead. A stack leads to another (`Leads`) if the parser does not tell them apart: with any
token ahead it reduces the one to the other, or refuses the token on both. Every reduction that does not depend on the
token ahead is one of this kind, so a reader that makes it at once does no harm.
-/

namespace Pseudocode.Tables

open Grammar

/-! ## Deciding about all kinds of tokens -/

def kinds : List TokenKind :=
  [.name, .string, .number, .truth, .plus, .minus, .times, .divide, .comparison, .comma, .leftParen, .rightParen,
    .marker, .letWord, .beWord, .ifWord, .thenWord, .elseWord, .returnWord, .gotoWord, .instructionWord, .printWord,
    .newline, .blank, .indent, .dedent, .endMarker]

theorem mem_kinds (k : TokenKind) : k ∈ kinds := by
  cases k <;> decide

instance {p : TokenKind → Prop} [DecidablePred p] : Decidable (∀ k, p k) :=
  decidable_of_iff (∀ k ∈ kinds, p k) ⟨fun h k => h k (mem_kinds k), fun h k _ => h k⟩

instance {p : Option TokenKind → Prop} [DecidablePred p] : Decidable (∀ k, p k) :=
  decidable_of_iff (p none ∧ ∀ k, p (some k)) (Option.forall).symm

/-! ## Reducing -/

/-- One reduction with a token of some kind ahead. -/
def Folds (k : Option TokenKind) (σ σ' : Stack) : Prop :=
  ∃ r, action? (top σ) k = some (.reduce r) ∧ fold r σ = some σ'

/-- Any number of reductions with a token of some kind ahead. -/
def Reduces (k : Option TokenKind) : Stack → Stack → Prop :=
  Relation.ReflTransGen (Folds k)

/-- After some reductions there is nothing to do. -/
def Refuses (k : Option TokenKind) (σ : Stack) : Prop :=
  ∃ σ', Reduces k σ σ' ∧ action? (top σ') k = none

variable {k : Option TokenKind} {σ σ' σ'' : Stack}

theorem Reduces.eq_of_none (h : Reduces k σ σ') (hn : action? (top σ) k = none) : σ' = σ := by
  rcases h.cases_head with rfl | ⟨_, ⟨r, hr, -⟩, -⟩
  · rfl
  · cases hr.symm.trans hn

theorem Refuses.of_reduces (h : Reduces k σ σ') (hr : Refuses k σ') : Refuses k σ := by
  obtain ⟨τ, ht, hn⟩ := hr
  exact ⟨τ, h.trans ht, hn⟩

theorem refuses_of_none (h : action? (top σ) k = none) : Refuses k σ :=
  ⟨σ, .refl, h⟩

/-! ## Stacks that are not told apart -/

/-- With a token of some kind ahead, one stack is reduced to the other, or nothing can be done with both. -/
def LeadsAt (k : Option TokenKind) (σ σ' : Stack) : Prop :=
  Reduces k σ σ' ∨ Refuses k σ ∧ action? (top σ') k = none

/-- One stack leads to the other whatever is ahead. -/
def Leads (σ σ' : Stack) : Prop :=
  ∀ k, LeadsAt k σ σ'

theorem LeadsAt.refl : LeadsAt k σ σ :=
  .inl .refl

theorem LeadsAt.trans (h : LeadsAt k σ σ') (h' : LeadsAt k σ' σ'') : LeadsAt k σ σ'' := by
  rcases h with h | ⟨h, hn⟩
  · rcases h' with h' | ⟨h', hn'⟩
    · exact .inl (h.trans h')
    · exact .inr ⟨h'.of_reduces h, hn'⟩
  · rcases h' with h' | ⟨-, hn'⟩
    · rw [h'.eq_of_none hn]
      exact .inr ⟨h, hn⟩
    · exact .inr ⟨h, hn'⟩

theorem Leads.refl : Leads σ σ :=
  fun _ => .refl

theorem Leads.trans (h : Leads σ σ') (h' : Leads σ' σ'') : Leads σ σ'' :=
  fun k => (h k).trans (h' k)

/-- A reduction that is made, or that neither stack allows. -/
theorem leadsAt_fold {r : Rule} (hf : fold r σ = some σ')
    (h : action? (top σ) k = some (.reduce r) ∨ action? (top σ) k = none ∧ action? (top σ') k = none) :
    LeadsAt k σ σ' := by
  rcases h with h | ⟨h, hn⟩
  · exact .inl (.single ⟨r, h, hf⟩)
  · exact .inr ⟨refuses_of_none h, hn⟩

theorem Refuses.of_leadsAt (h : LeadsAt k σ σ') (hr : Refuses k σ') : Refuses k σ := by
  rcases h with h | ⟨h, -⟩
  · exact hr.of_reduces h
  · exact h

/-- In one state the parser reduces by a rule, which brings it to the other, unless it can do nothing in both. -/
def Passes (s : Nat) (r : Rule) (s' : Nat) (k : Option TokenKind) : Prop :=
  action? s k = some (.reduce r) ∨ action? s k = none ∧ action? s' k = none

instance (s : Nat) (r : Rule) (s' : Nat) : DecidablePred (Passes s r s') :=
  fun _ => inferInstanceAs (Decidable (_ ∨ _))

/-! ## Runs -/

theorem step_of_folds {tokens : List Token} (h : Folds (tokens.head?.map Token.kind) σ σ') :
    step σ tokens = .on σ' tokens := by
  obtain ⟨r, ha, hf⟩ := h
  simp only [step, ha, hf]

/-- Reductions are steps of a run. -/
theorem run_of_reduces {tokens : List Token} (h : Reduces (tokens.head?.map Token.kind) σ σ') :
    ∃ n, ∀ m, run (n + m) σ tokens = run m σ' tokens := by
  induction h using Relation.ReflTransGen.head_induction_on with
  | refl => exact ⟨0, fun m => by rw [Nat.zero_add]⟩
  | head hs _ ih =>
    obtain ⟨n, hn⟩ := ih
    refine ⟨n + 1, fun m => ?_⟩
    rw [Nat.add_right_comm, run, step_of_folds hs]
    exact hn m

/-- More steps do not change what a run comes to. -/
theorem run_add {n : Nat} {tokens : List Token} {result : Except ReadFault Tree} (h : run n σ tokens = some result)
    (m : Nat) : run (n + m) σ tokens = some result := by
  induction n generalizing σ tokens with
  | zero => cases h
  | succ n ih =>
    rw [Nat.add_right_comm, run]
    rw [run] at h
    split at h
    · exact ih h
    · exact h

/-- A run comes to a result. -/
def Comes (σ : Stack) (tokens : List Token) (result : Except ReadFault Tree) : Prop :=
  ∃ n, run n σ tokens = some result

theorem Comes.of_reduces {tokens : List Token} {result : Except ReadFault Tree}
    (h : Reduces (tokens.head?.map Token.kind) σ σ') (hc : Comes σ' tokens result) : Comes σ tokens result := by
  obtain ⟨n, hn⟩ := run_of_reduces h
  obtain ⟨m, hm⟩ := hc
  exact ⟨n + m, (hn m).trans hm⟩

theorem Comes.of_step {tokens tokens' : List Token} {result : Except ReadFault Tree}
    (h : step σ tokens = .on σ' tokens') (hc : Comes σ' tokens' result) : Comes σ tokens result := by
  obtain ⟨n, hn⟩ := hc
  refine ⟨n + 1, ?_⟩
  rw [run, h]
  exact hn

theorem comes_of_refuses {tokens : List Token} (h : Refuses (tokens.head?.map Token.kind) σ) :
    Comes σ tokens (.error (.unexpected (tokens.headD (endMarker none)))) := by
  obtain ⟨σ', hr, hn⟩ := h
  refine .of_reduces hr ⟨1, ?_⟩
  simp only [run, step, hn, refuse]

end Pseudocode.Tables
