import Mathlib
import Pseudocode.Run.Eval

/-!
# The kinds of values of expressions

The kind of value that an expression has follows from the kinds of the values of its variables. `Kind.ofOperation` and
`Kind.ofComparison` say what each operator makes of the kinds of its operands, and which it refuses, and `Tree.kindOf?`
follows them through a whole expression.

`Foretells k x` says of a computation `x` that it gives a value of the kind `k`, or fails because a number is zero or
too large; and that it gives no value if there is no such kind. Every operator keeps this (`operate_foretold`,
`compareAll_foretold`), and so does every expression (`eval_foretold`). So no value of a variable decides whether an
expression is refused, nor of which kind its value is: `eval_kind`.
-/

namespace Pseudocode

namespace Kind

/-- The kinds of values that variables have. -/
def isBasic : Kind → Bool
  | bool | int | float | text => true
  | _ => false

/-- The kind of value of an operation on operands of two kinds. Truth values count as whole numbers among themselves,
and texts can only be joined. -/
def ofOperation (op : String) : Kind → Kind → Option Kind
  | int, int | bool, bool => some (if op = "/" then float else int)
  | float, float | float, int | int, float => some float
  | text, text => if op = "+" then some text else Option.none
  | _, _ => Option.none

/-- The kind of value of a comparison. A text has no order with anything but a text. -/
def ofComparison (op : String) (k l : Kind) : Option Kind :=
  if (k = text ↔ l = text) ∨ op = "==" ∨ op = "!=" then some bool else Option.none

/-- Whether values of two kinds may stand together in an operation. -/
def together (k l : Kind) : Bool :=
  l = k || (k = int || k = float) && (l = int || l = float)

/-- The kind of value of an operation, in the order in which the operands are looked at. -/
theorem ofOperation_eq (op : String) {k l : Kind} (hk : k.isBasic) (hl : l.isBasic) :
    ofOperation op k l =
      if together k l = false then Option.none
      else if k = text then if op = "+" then some text else Option.none
      else if k = float ∨ l = float then some float
      else some (if op = "/" then float else int) := by
  cases k with
  | bool | int | float | text =>
    cases l with
    | bool | int | float | text => rfl
    | _ => cases hl
  | _ => cases hk

end Kind

/-- The faults that depend on how large numbers are: a zero to divide by, or a number beyond the largest fraction. -/
def Fault.ofSize : Fault → Bool
  | divisionByZero | wholeTooLarge | quotientTooLarge => true
  | _ => false

namespace Tree

/-- Literals, names, and operators between two of these. -/
inductive Composed : Tree → Prop
  | bool (b : Bool) : Composed (.bool b)
  | int (n : Int) : Composed (.int n)
  | float (x : Float) : Composed (.float x)
  | nan (i : Nat) : Composed (.nan i)
  | text (s : String) : Composed (.text s)
  | name (x : String) : Composed (.name x)
  | operation {op : String} {a b : Tree} (ho : isBinary op) (ha : Composed a) (hb : Composed b) :
      Composed (.operation op [a, b])
  | comparison {op : String} {a b : Tree} (ho : isComparing op) (ha : Composed a) (hb : Composed b) :
      Composed (.comparison op [a, b])

mutual

/-- The kind of value of an expression, given those of the variables. -/
def kindOf? (Γ : String → Option Kind) : Tree → Option Kind
  | bool _ => some .bool
  | int _ => some .int
  | float _ | nan _ => some .float
  | text _ => some .text
  | name x => Γ x
  | operation op operands =>
    match kindsOf? Γ operands with
    | some [k, l] => Kind.ofOperation op k l
    | _ => Option.none
  | comparison op operands =>
    match kindsOf? Γ operands with
    | some [k, l] => Kind.ofComparison op k l
    | _ => Option.none
  | _ => Option.none

/-- The kinds of values of some expressions. -/
def kindsOf? (Γ : String → Option Kind) : List Tree → Option (List Kind)
  | [] => some []
  | t :: rest => do
    let k ← kindOf? Γ t
    let ks ← kindsOf? Γ rest
    return k :: ks

end

theorem kindOf?_operation (Γ : String → Option Kind) (op : String) (a b : Tree) :
    kindOf? Γ (.operation op [a, b]) = (kindOf? Γ a).bind fun k => (kindOf? Γ b).bind fun l => Kind.ofOperation op k l := by
  simp only [kindOf?, kindsOf?]
  cases kindOf? Γ a <;> cases kindOf? Γ b <;> rfl

theorem kindOf?_comparison (Γ : String → Option Kind) (op : String) (a b : Tree) :
    kindOf? Γ (.comparison op [a, b]) =
      (kindOf? Γ a).bind fun k => (kindOf? Γ b).bind fun l => Kind.ofComparison op k l := by
  simp only [kindOf?, kindsOf?]
  cases kindOf? Γ a <;> cases kindOf? Γ b <;> rfl

theorem eval_operation (σ : Store) (op : String) (a b : Tree) :
    eval σ (.operation op [a, b]) = eval σ a >>= fun v => eval σ b >>= fun w => operate op [v, w] := by
  simp only [eval, evalAll]
  cases eval σ a <;> cases eval σ b <;> rfl

theorem eval_comparison (σ : Store) (op : String) (a b : Tree) :
    eval σ (.comparison op [a, b]) =
      eval σ a >>= fun v => eval σ b >>= fun w => compareAll op [v, w] >>= fun c => .ok (.bool c) := by
  simp only [eval, evalAll]
  cases eval σ a <;> cases eval σ b <;> rfl

/-! ## What a kind foretells -/

/-- A computation gives a value of a kind, or fails because of the size of a number. Without a kind it fails. -/
def Foretells : Option Kind → Except Fault Tree → Prop
  | some k, .ok v => v.kind = k ∧ k.isBasic
  | some _, .error f => f.ofSize
  | Option.none, .ok _ => False
  | Option.none, .error _ => True

theorem Foretells.of_fault {f : Fault} (hf : f.ofSize) (k : Option Kind) : Foretells k (.error f) := by
  cases k with
  | none => trivial
  | some k => exact hf

/-- Two operands, and an operator that does with all values of their kinds what is foretold. -/
theorem Foretells.bind₂ {k l : Option Kind} {x y : Except Fault Tree} {g : Kind → Kind → Option Kind}
    {f : Tree → Tree → Except Fault Tree} (hx : Foretells k x) (hy : Foretells l y)
    (hf : ∀ v w, v.kind.isBasic → w.kind.isBasic → Foretells (g v.kind w.kind) (f v w)) :
    Foretells (k.bind fun a => l.bind fun b => g a b) (x >>= fun v => y >>= fun w => f v w) := by
  cases k with
  | none =>
    cases x with
    | ok v => exact absurd hx id
    | error f₁ => trivial
  | some a =>
    cases x with
    | error f₁ => exact .of_fault hx _
    | ok v =>
      obtain ⟨rfl, hv⟩ := hx
      cases l with
      | none =>
        cases y with
        | ok w => exact absurd hy id
        | error f₂ => trivial
      | some b =>
        cases y with
        | error f₂ => exact .of_fault hy _
        | ok w =>
          obtain ⟨rfl, hw⟩ := hy
          exact hf v w hv hw

/-! ## Operators on values -/

theorem text_of_kind {v : Tree} (h : v.kind = .text) : ∃ s, v = .text s := by
  cases v with
  | text s => exact ⟨s, rfl⟩
  | _ => cases h

/-- Values that are not texts are numbers. -/
theorem num?_of_kind {v : Tree} (hv : v.kind.isBasic) (h : v.kind ≠ .text) :
    ∃ m, v.num? = some m ∧ (v.kind = .float ↔ ∃ x, m = .float x) := by
  cases v with
  | bool b => exact ⟨_, rfl, by simp [kind]⟩
  | int n => exact ⟨_, rfl, by simp [kind]⟩
  | float x => exact ⟨_, rfl, by simp [kind]⟩
  | nan i => exact ⟨_, rfl, by simp [kind]⟩
  | text s => exact absurd rfl h
  | _ => cases hv

theorem alike_pair (v w : Tree) : alike [v, w] = v.kind.together w.kind := by
  simp [alike, Kind.together]

/-- The operators on two values that may stand together and are numbers. -/
theorem operate_numbers {v w : Tree} {m n : Num} (hm : v.num? = some m) (hn : w.num? = some n) (ha : alike [v, w]) :
    operate "+" [v, w] = m.combine (· + ·) (· + ·) n ∧ operate "-" [v, w] = m.combine (· - ·) (· - ·) n ∧
      operate "*" [v, w] = m.combine (· * ·) (· * ·) n ∧
      operate "/" [v, w] = if same w (.int 0) then .error .divisionByZero else m.divide n := by
  have hadd : v.add w = m.combine (· + ·) (· + ·) n := by
    unfold add
    split
    · cases hm
    · cases hm
    · simp only [hm, hn]
  refine ⟨?_, ?_, ?_, ?_⟩
  · simp [operate, ha, isBinary, hadd]
  · simp [operate, ha, isBinary, subtract, hm, hn]
  · simp [operate, ha, isBinary, multiply, hm, hn]
  · simp [operate, ha, isBinary, divide, hm, hn]

theorem binary_cases {op : String} (h : isBinary op) : op = "+" ∨ op = "-" ∨ op = "*" ∨ op = "/" := by
  simpa [isBinary, or_assoc] using h

theorem quotient_foretold (w : Tree) {x : Except Fault Tree} (hx : Foretells (some .float) x) :
    Foretells (some .float) (if same w (.int 0) then .error .divisionByZero else x) := by
  split
  · rfl
  · exact hx

theorem operate_whole {v w : Tree} {m n : Int} (hm : v.num? = some (.int m)) (hn : w.num? = some (.int n))
    (ha : alike [v, w]) {op : String} (ho : isBinary op) :
    Foretells (some (if op = "/" then .float else .int)) (operate op [v, w]) := by
  obtain ⟨h₁, h₂, h₃, h₄⟩ := operate_numbers hm hn ha
  rcases binary_cases ho with rfl | rfl | rfl | rfl
  · rw [h₁]; exact ⟨rfl, rfl⟩
  · rw [h₂]; exact ⟨rfl, rfl⟩
  · rw [h₃]; exact ⟨rfl, rfl⟩
  · rw [h₄]
    apply quotient_foretold
    unfold Num.divide
    dsimp only
    split
    · exact ⟨rfl, rfl⟩
    · rfl

/-- A computation on two numbers as fractions. -/
theorem floats_foretold (f : Float → Float → Float) (m n : Num) :
    Foretells (some .float) (do return .float (f (← m.toFloat) (← n.toFloat))) := by
  have hf : ∀ a : Num, (∃ x, a.toFloat = .ok x) ∨ a.toFloat = .error .wholeTooLarge := by
    intro a
    cases a with
    | float x => exact .inl ⟨x, rfl⟩
    | int i =>
      unfold Num.toFloat
      dsimp only
      split
      · exact .inl ⟨_, rfl⟩
      · exact .inr rfl
  rcases hf m with ⟨x, hx⟩ | hx
  · rcases hf n with ⟨y, hy⟩ | hy
    · rw [hx, hy]; exact ⟨rfl, rfl⟩
    · rw [hx, hy]; rfl
  · rw [hx]; rfl

theorem operate_real {v w : Tree} {m n : Num} (hm : v.num? = some m) (hn : w.num? = some n) (ha : alike [v, w])
    (hr : (∃ x, m = .float x) ∨ ∃ y, n = .float y) {op : String} (ho : isBinary op) :
    Foretells (some .float) (operate op [v, w]) := by
  have hc : ∀ f g, m.combine f g n = (do return .float (g (← m.toFloat) (← n.toFloat))) := by
    rcases hr with ⟨x, rfl⟩ | ⟨y, rfl⟩
    · intro f g; rfl
    · intro f g; cases m <;> rfl
  have hd : m.divide n = (do return .float ((← m.toFloat) / (← n.toFloat))) := by
    rcases hr with ⟨x, rfl⟩ | ⟨y, rfl⟩
    · rfl
    · cases m <;> rfl
  obtain ⟨h₁, h₂, h₃, h₄⟩ := operate_numbers hm hn ha
  rcases binary_cases ho with rfl | rfl | rfl | rfl
  · rw [h₁, hc]; exact floats_foretold _ m n
  · rw [h₂, hc]; exact floats_foretold _ m n
  · rw [h₃, hc]; exact floats_foretold _ m n
  · rw [h₄, hd]; exact quotient_foretold w (floats_foretold _ m n)

theorem operate_texts (s t : String) {op : String} (ho : isBinary op) :
    Foretells (if op = "+" then some .text else Option.none) (operate op [.text s, .text t]) := by
  have ha : alike [Tree.text s, .text t] := by simp [alike, kind]
  rcases binary_cases ho with rfl | rfl | rfl | rfl
  · simp [operate, ha, isBinary, add, Foretells, kind, Kind.isBasic]
  · simp [operate, ha, isBinary, subtract, num?, Foretells]
  · simp [operate, ha, isBinary, multiply, num?, kind, Foretells]
  · simp [operate, ha, isBinary, divide, same, samePart, sameNumber, num?, Foretells]

/-- An operation does with two values what their kinds foretell. -/
theorem operate_foretold {op : String} (ho : isBinary op) {v w : Tree} (hv : v.kind.isBasic) (hw : w.kind.isBasic) :
    Foretells (Kind.ofOperation op v.kind w.kind) (operate op [v, w]) := by
  rw [Kind.ofOperation_eq op hv hw, ← alike_pair]
  by_cases ha : alike [v, w] = false
  · rw [if_pos ha, operate, ha]
    trivial
  rw [if_neg ha]
  rw [Bool.not_eq_false] at ha
  by_cases ht : v.kind = .text
  · have hu : w.kind = .text := by simpa [alike_pair, Kind.together, ht] using ha
    obtain ⟨s, rfl⟩ := text_of_kind ht
    obtain ⟨t, rfl⟩ := text_of_kind hu
    rw [if_pos ht]
    exact operate_texts s t ho
  · have hu : w.kind ≠ .text := by
      intro hu
      simp [alike_pair, Kind.together, hu, Ne.symm ht] at ha
    obtain ⟨m, hm, hf⟩ := num?_of_kind hv ht
    obtain ⟨n, hn, hg⟩ := num?_of_kind hw hu
    rw [if_neg ht]
    split
    case isTrue hr => exact operate_real hm hn ha (by rwa [hf, hg] at hr) ho
    case isFalse hr =>
      cases m with
      | float x => exact absurd (.inl (hf.2 ⟨x, rfl⟩)) hr
      | int i =>
        cases n with
        | float y => exact absurd (.inr (hg.2 ⟨y, rfl⟩)) hr
        | int j => exact operate_whole hm hn ha ho

/-- Two texts are ordered, and two numbers. -/
theorem ordered_ok (op : String) {v w : Tree} (hv : v.kind.isBasic) (hw : w.kind.isBasic)
    (h : v.kind = .text ↔ w.kind = .text) : ∃ c, ordered op v w = .ok c := by
  by_cases ht : v.kind = .text
  · obtain ⟨s, rfl⟩ := text_of_kind ht
    obtain ⟨t, rfl⟩ := text_of_kind (h.1 ht)
    exact ⟨_, rfl⟩
  · obtain ⟨m, hm, -⟩ := num?_of_kind hv ht
    obtain ⟨n, hn, -⟩ := num?_of_kind hw (ht ∘ h.2)
    unfold ordered
    split
    · exact ⟨_, rfl⟩
    · cases hm
    · rw [hm, hn]
      exact ⟨_, rfl⟩

/-- A text and a number are not. -/
theorem ordered_fails (op : String) {v w : Tree} (hv : v.kind.isBasic) (h : ¬(v.kind = .text ↔ w.kind = .text)) :
    ordered op v w = .error (.unordered op v.kind w.kind) := by
  have hnum : ∀ {u : Tree} {i : Num}, u.num? = some i → u.kind ≠ .text := by
    intro u i hu ht
    obtain ⟨s, rfl⟩ := text_of_kind ht
    cases hu
  unfold ordered
  split
  · exact absurd Iff.rfl h
  · cases hv
  · split
    case h_1 hm hn => exact absurd (iff_of_false (hnum hm) (hnum hn)) h
    case h_2 => rfl

/-- No truth value stands with a whole number where a text stands with something else. -/
theorem truthWithWhole_of_text {v w : Tree} (h : ¬(v.kind = .text ↔ w.kind = .text)) :
    truthWithWhole [v, w] = false := by
  by_cases hv : v.kind = .text
  · cases hw : w.kind <;> simp [truthWithWhole, hv, hw]
  · have hw : w.kind = .text := by
      by_contra hw
      exact h (iff_of_false hv hw)
    cases hv : v.kind <;> simp [truthWithWhole, hv, hw]

/-- A comparison does with two values what their kinds foretell. -/
theorem compareAll_foretold {op : String} (ho : isComparing op) {v w : Tree} (hv : v.kind.isBasic)
    (hw : w.kind.isBasic) :
    Foretells (Kind.ofComparison op v.kind w.kind) (compareAll op [v, w] >>= fun c => .ok (.bool c)) := by
  rw [Kind.ofComparison]
  split
  case isTrue h =>
    have hc : ∃ c, compares op v w = .ok c := by
      rcases h with h | rfl | rfl
      · unfold compares
        split
        · exact ⟨_, rfl⟩
        · split
          · exact ⟨_, rfl⟩
          · exact ordered_ok op hv hw h
      · exact ⟨_, rfl⟩
      · exact ⟨_, rfl⟩
    obtain ⟨c, hc⟩ := hc
    rw [compareAll, hc]
    split <;> exact ⟨rfl, rfl⟩
  case isFalse h =>
    simp only [not_or] at h
    obtain ⟨ht, he, hn⟩ := h
    rw [compareAll, truthWithWhole_of_text ht, compares]
    simp only [beq_iff_eq, he, hn, ho, if_false, if_true, ordered_fails op hv ht, Bool.false_eq_true]
    trivial

/-! ## Expressions -/

end Tree

/-- The kinds of the values of the variables. -/
def Store.kinds (σ : Store) (x : String) : Option Kind :=
  (σ.get? x).map Tree.kind

/-- All variables have truth values, numbers or texts. -/
def Store.Basic (σ : Store) : Prop :=
  ∀ x v, σ.get? x = some v → v.kind.isBasic

namespace Tree

/-- What an expression comes to is foretold by the kinds of the values of its variables. -/
theorem eval_foretold {σ : Store} (hσ : σ.Basic) {e : Tree} (he : Composed e) :
    Foretells (e.kindOf? σ.kinds) (e.eval σ) := by
  induction he with
  | bool | int | float | nan | text => exact ⟨rfl, rfl⟩
  | name x =>
    rw [kindOf?, eval, Store.kinds]
    cases hx : σ.get? x with
    | none => trivial
    | some v => exact ⟨rfl, hσ x v hx⟩
  | operation ho _ _ iha ihb =>
    rw [kindOf?_operation, eval_operation]
    exact iha.bind₂ ihb fun v w hv hw => operate_foretold ho hv hw
  | comparison ho _ _ iha ihb =>
    rw [kindOf?_comparison, eval_comparison]
    exact iha.bind₂ ihb fun v w hv hw => compareAll_foretold ho hv hw

/-- The kinds of the values of the variables decide of which kind the value of an expression is, and whether it has one:
where they give a kind, only a zero or a number that is too large can keep the expression from a value of this kind; and
where they give none, there is no value. So it is with all variables of the same kinds, whatever their values are. -/
theorem eval_kind (σ : Store) (hσ : σ.Basic) (e : Tree) (he : Composed e) :
    (∀ v, e.eval σ = .ok v → e.kindOf? σ.kinds = some v.kind) ∧
      (∀ k, e.kindOf? σ.kinds = some k →
        (∃ v, e.eval σ = .ok v ∧ v.kind = k) ∨ ∃ f, e.eval σ = .error f ∧ f.ofSize) ∧
      ∀ σ' : Store, σ'.Basic → σ'.kinds = σ.kinds → ∀ v, e.eval σ = .ok v →
        (∃ v', e.eval σ' = .ok v' ∧ v'.kind = v.kind) ∨ ∃ f, e.eval σ' = .error f ∧ f.ofSize := by
  have hvalue : ∀ v, e.eval σ = .ok v → e.kindOf? σ.kinds = some v.kind := by
    intro v hv
    have h := eval_foretold hσ he
    rw [hv] at h
    cases hk : e.kindOf? σ.kinds with
    | none => rw [hk] at h; exact absurd h id
    | some k => rw [hk] at h; rw [h.1]
  have hkind : ∀ {τ : Store}, τ.Basic → ∀ k, e.kindOf? τ.kinds = some k →
      (∃ v, e.eval τ = .ok v ∧ v.kind = k) ∨ ∃ f, e.eval τ = .error f ∧ f.ofSize := by
    intro τ hτ k hk
    have h := eval_foretold hτ he
    rw [hk] at h
    cases hv : e.eval τ with
    | ok v => rw [hv] at h; exact .inl ⟨v, rfl, h.1⟩
    | error f => rw [hv] at h; exact .inr ⟨f, rfl, h⟩
  refine ⟨hvalue, hkind hσ, ?_⟩
  intro σ' hσ' hs v hv
  exact hkind hσ' _ (hs ▸ hvalue v hv)

/-- Variables of two kinds that are numbers, though one of them is a truth value and the other is not a number. -/
def oddNumbers : Store :=
  ⟨[("b", .bool true), ("x", .nan 0)]⟩

/-- The quotient of truth values and a whole number make a fraction, which is compared. -/
def mixture : Tree :=
  .comparison "<=" [.operation "-" [.operation "/" [.name "b", .bool true], .int 2], .name "x"]

theorem eval_kind_mixture :
    oddNumbers.Basic ∧ mixture.Composed ∧ mixture.kindOf? oddNumbers.kinds = some .bool ∧
      ((∃ v, mixture.eval oddNumbers = .ok v ∧ v.kind = .bool) ∨
        ∃ f, mixture.eval oddNumbers = .error f ∧ f.ofSize) := by
  have hσ : oddNumbers.Basic := by
    intro x v h
    simp only [Store.get?, oddNumbers, Store.lookUp] at h
    split at h
    · cases h; rfl
    · split at h
      · cases h; rfl
      · cases h
  have he : mixture.Composed :=
    .comparison rfl (.operation rfl (.operation rfl (.name "b") (.bool true)) (.int 2)) (.name "x")
  have hk : mixture.kindOf? oddNumbers.kinds = some .bool := by decide
  exact ⟨hσ, he, hk, (eval_kind oddNumbers hσ mixture he).2.1 .bool hk⟩

end Tree

end Pseudocode
