import Pseudocode.Proofs.Typing

/-!
# How the six comparisons agree

Two texts stand to each other in one of three ways, and so do two whole numbers or truth values (`exists_stands`). All
six comparisons of two values follow from the way in which they stand (`Stands.compares`). So they agree with each
other: `Coherent` says how.

A truth value and a whole number are left out of this. They could be compared as numbers, but no comparison of the two
holds, neither `==` nor `!=`. `comparisons_coherent` has both.
-/

namespace Pseudocode

namespace Kind

/-- The kinds of values that are no fractions. -/
def isExact : Kind → Bool
  | bool | int | text => true
  | _ => false

theorem isBasic_of_isExact {k : Kind} (h : k.isExact) : k.isBasic := by
  cases k <;> first | rfl | cases h

end Kind

namespace Tree

/-! ## How two values stand -/

/-- A value stands to another one in a way that decides whether they are equal and what their order is. -/
structure Stands (v w : Tree) (o : Ordering) : Prop where
  equal : same v w = o.isEq
  order : ∀ op, ordered op v w = .ok (holds op (some o))

theorem stands_texts (s t : String) : Stands (.text s) (.text t) (compare s t) := by
  refine ⟨?_, fun op => rfl⟩
  rw [same, samePart, Bool.eq_iff_iff, beq_iff_eq, Ordering.isEq_iff_eq_eq, Std.LawfulEqCmp.compare_eq_iff_eq]
  simp

theorem stands_numbers {v w : Tree} {m n : Int} (hm : v.num? = some (.int m)) (hn : w.num? = some (.int n)) :
    Stands v w (compare m n) := by
  have hs : same v w = sameNumber v w := by
    cases v <;> cases hm <;> cases w <;> cases hn <;> simp [same, samePart]
  have ho : ∀ op, ordered op v w = .ok (holds op (some (compare m n))) := by
    intro op
    unfold ordered
    split
    · cases hm
    · cases hm
    · rw [hm, hn]
      rfl
  refine ⟨?_, ho⟩
  rw [hs, sameNumber, hm, hn]
  simp only [Num.compare]
  cases compare m n <;> rfl

/-- The number that a truth value or a whole number is. -/
theorem num?_of_isExact {v : Tree} (hv : v.kind.isExact) (ht : v.kind ≠ .text) : ∃ n, v.num? = some (.int n) := by
  cases v with
  | bool b => exact ⟨_, rfl⟩
  | int n => exact ⟨n, rfl⟩
  | text s => exact absurd rfl ht
  | _ => cases hv

/-- Two texts stand to each other in some way, and so do two values that are no texts. -/
theorem exists_stands {v w : Tree} (hv : v.kind.isExact) (hw : w.kind.isExact) (h : v.kind = .text ↔ w.kind = .text) :
    ∃ o, Stands v w o ∧ Stands w v o.swap := by
  by_cases ht : v.kind = .text
  · obtain ⟨s, rfl⟩ := text_of_kind ht
    obtain ⟨t, rfl⟩ := text_of_kind (h.1 ht)
    refine ⟨compare s t, stands_texts s t, ?_⟩
    rw [← Std.OrientedOrd.eq_swap]
    exact stands_texts t s
  · obtain ⟨m, hm⟩ := num?_of_isExact hv ht
    obtain ⟨n, hn⟩ := num?_of_isExact hw (ht ∘ h.2)
    refine ⟨compare m n, stands_numbers hm hn, ?_⟩
    rw [← Std.OrientedOrd.eq_swap]
    exact stands_numbers hn hm

/-! ## What is compared -/

/-- Whether a comparison holds between values that stand to each other as given. -/
def meets (op : String) (o : Ordering) : Bool :=
  if op == "==" then o.isEq else if op == "!=" then o.isNe else holds op (some o)

theorem Stands.compares {v w : Tree} {o : Ordering} (h : Stands v w o) {op : String} (ho : isComparing op) :
    compares op v w = .ok (meets op o) := by
  unfold Tree.compares meets
  split
  · rw [h.equal]
  · split
    · rw [h.equal]
      cases o <;> rfl
    · exact h.order op

/-- A truth value and a whole number, in one order or the other. -/
def Mixed (v w : Tree) : Prop :=
  v.kind = .bool ∧ w.kind = .int ∨ v.kind = .int ∧ w.kind = .bool

instance (v w : Tree) : Decidable (Mixed v w) :=
  inferInstanceAs (Decidable (_ ∨ _))

theorem truthWithWhole_iff (v w : Tree) : truthWithWhole [v, w] = true ↔ Mixed v w := by
  simp only [truthWithWhole, Mixed, List.any_cons, List.any_nil, Bool.or_false, Bool.and_eq_true, Bool.or_eq_true,
    decide_eq_true_eq]
  grind

theorem Mixed.swap {v w : Tree} (h : Mixed v w) : Mixed w v := by
  rcases h with ⟨hv, hw⟩ | ⟨hv, hw⟩
  · exact .inr ⟨hw, hv⟩
  · exact .inl ⟨hw, hv⟩

/-- What the comparison of two expressions comes to. -/
def compared (σ : Store) (op : String) (a b : Tree) : Except Fault Tree :=
  eval σ (.comparison op [a, b])

section

variable {σ : Store} {a b v w : Tree} {op : String}

theorem compared_of_values (ha : a.eval σ = .ok v) (hb : b.eval σ = .ok w) (op : String) :
    compared σ op a b =
      if truthWithWhole [v, w] then .ok (bool false) else compares op v w >>= fun c => .ok (bool c) := by
  rw [compared, eval_comparison, ha, hb]
  change (compareAll op [v, w] >>= fun c => .ok (bool c)) = _
  rw [compareAll]
  split <;> rfl

theorem compared_mixed (ha : a.eval σ = .ok v) (hb : b.eval σ = .ok w) (h : Mixed v w) (op : String) :
    compared σ op a b = .ok (bool false) := by
  rw [compared_of_values ha hb, if_pos ((truthWithWhole_iff v w).2 h)]

theorem compared_unmixed (ha : a.eval σ = .ok v) (hb : b.eval σ = .ok w) (h : ¬Mixed v w) (op : String) :
    compared σ op a b = compares op v w >>= fun c => .ok (bool c) := by
  rw [compared_of_values ha hb, if_neg (mt (truthWithWhole_iff v w).1 h)]

theorem Stands.compared {o : Ordering} (h : Stands v w o) (ha : a.eval σ = .ok v) (hb : b.eval σ = .ok w)
    (hm : ¬Mixed v w) (ho : isComparing op) : compared σ op a b = .ok (bool (meets op o)) := by
  rw [compared_unmixed ha hb hm, h.compares ho]
  rfl

end

/-! ## Coherence -/

/-- The signs that ask for an order. -/
def orderSigns : List String :=
  ["<", "<=", ">", ">="]

/-- The laws of an order, where `==` and the four signs have an answer. -/
structure OrderLaws (σ : Store) (a b : Tree) : Prop where
  /-- `<=` is `<` or `==`. -/
  atMost : ∃ less equal, compared σ "<" a b = .ok (bool less) ∧ compared σ "==" a b = .ok (bool equal) ∧
    compared σ "<=" a b = .ok (bool (less || equal))
  /-- `>=` is `<=` the other way round. -/
  atLeast : ∃ c, compared σ ">=" a b = .ok (bool c) ∧ compared σ "<=" b a = .ok (bool c)
  /-- `>` is `<` the other way round. -/
  greater : ∃ c, compared σ ">" a b = .ok (bool c) ∧ compared σ "<" b a = .ok (bool c)
  /-- Exactly one of `<`, `==` and `>` holds. -/
  one : ∃ o : Ordering, compared σ "<" a b = .ok (bool o.isLT) ∧ compared σ "==" a b = .ok (bool o.isEq) ∧
    compared σ ">" a b = .ok (bool o.isGT)

/-- The comparisons of two expressions agree with each other. -/
structure Coherent (σ : Store) (a b : Tree) : Prop where
  /-- `!=` is the negation of `==`. -/
  negation : ∃ equal, compared σ "==" a b = .ok (bool equal) ∧ compared σ "!=" a b = .ok (bool !equal)
  /-- The order signs are those of an order, as soon as one of them has an answer. -/
  orders : (∃ op ∈ orderSigns, ∃ c, compared σ op a b = .ok c) → OrderLaws σ a b

section

variable {σ : Store} {a b v w : Tree}

theorem OrderLaws.of_stands {o : Ordering} (h : Stands v w o) (h' : Stands w v o.swap) (ha : a.eval σ = .ok v)
    (hb : b.eval σ = .ok w) (hm : ¬Mixed v w) : OrderLaws σ a b := by
  have hab : ∀ op, isComparing op → compared σ op a b = .ok (bool (meets op o)) := fun op ho => h.compared ha hb hm ho
  have hba : ∀ op, isComparing op → compared σ op b a = .ok (bool (meets op o.swap)) :=
    fun op ho => h'.compared hb ha (hm ∘ Mixed.swap) ho
  refine ⟨⟨_, _, hab "<" rfl, hab "==" rfl, ?_⟩, ⟨_, hab ">=" rfl, ?_⟩, ⟨_, hab ">" rfl, ?_⟩, o, ?_, hab "==" rfl, ?_⟩
  · rw [hab "<=" rfl]
    cases o <;> rfl
  · rw [hba "<=" rfl]
    cases o <;> rfl
  · rw [hba "<" rfl]
    cases o <;> rfl
  · rw [hab "<" rfl]
    cases o <;> rfl
  · rw [hab ">" rfl]
    cases o <;> rfl

/-- An order sign has an answer only between two texts and between values that are no texts. -/
theorem text_iff_of_compared (ha : a.eval σ = .ok v) (hb : b.eval σ = .ok w) (hv : v.kind.isExact) (hm : ¬Mixed v w)
    {op : String} (ho : op ∈ orderSigns) {c : Tree} (h : compared σ op a b = .ok c) :
    v.kind = .text ↔ w.kind = .text := by
  by_contra ht
  have hc : compares op v w = .error (.unordered op v.kind w.kind) := by
    rw [← ordered_fails op (Kind.isBasic_of_isExact hv) ht]
    simp only [orderSigns, List.mem_cons, List.not_mem_nil, or_false] at ho
    rcases ho with rfl | rfl | rfl | rfl <;> rfl
  rw [compared_unmixed ha hb hm, hc] at h
  cases h

end

/-- Of two expressions with truth values, whole numbers or texts, the six comparisons agree with each other, unless a
truth value is compared with a whole number: then none of them holds. -/
theorem comparisons_coherent (σ : Store) (a b v w : Tree) (ha : a.eval σ = .ok v) (hb : b.eval σ = .ok w)
    (hv : v.kind.isExact) (hw : w.kind.isExact) :
    (¬Mixed v w → Coherent σ a b) ∧
      (Mixed v w → ∀ op, isComparing op → compared σ op a b = .ok (bool false)) := by
  refine ⟨fun hm => ⟨⟨same v w, ?_, ?_⟩, ?_⟩, fun hm op _ => compared_mixed ha hb hm op⟩
  · rw [compared_unmixed ha hb hm]
    rfl
  · rw [compared_unmixed ha hb hm]
    rfl
  · rintro ⟨op, ho, c, hc⟩
    obtain ⟨o, h, h'⟩ := exists_stands hv hw (text_iff_of_compared ha hb hv hm ho hc)
    exact .of_stands h h' ha hb hm

/-- Variables that hold a truth value and a text. -/
def labelled : Store :=
  ⟨[("done", .bool true), ("place", .text "\"Bern\"")]⟩

def lengthened : Tree :=
  .operation "+" [.name "place", .text "\"er\""]

theorem comparisons_coherent_labelled :
    lengthened.eval labelled = .ok (.text "\"Berner\"") ∧ (name "place").eval labelled = .ok (.text "\"Bern\"") ∧
      Coherent labelled lengthened (.name "place") ∧
      compared labelled ">" lengthened (.name "place") = .ok (bool true) ∧
      (name "done").eval labelled = .ok (.bool true) ∧
      compared labelled "<=" (.name "done") (.int 1) = .ok (bool false) := by
  have hl : lengthened.eval labelled = .ok (.text "\"Berner\"") := by cbv
  have hp : (name "place").eval labelled = .ok (.text "\"Bern\"") := by cbv
  have hd : (name "done").eval labelled = .ok (.bool true) := by cbv
  have ht := comparisons_coherent labelled _ _ _ _ hl hp rfl rfl
  have hm := comparisons_coherent labelled (.name "done") (.int 1) _ _ hd rfl rfl rfl
  exact ⟨hl, hp, ht.1 (by decide), by cbv, hd, hm.2 (.inl ⟨rfl, rfl⟩) "<=" rfl⟩

/-- A truth value is neither equal nor unequal to a whole number, and neither smaller nor greater. -/
theorem true_and_one_not_coherent :
    compared .empty "==" (.bool true) (.int 1) = .ok (bool false) ∧
      compared .empty "!=" (.bool true) (.int 1) = .ok (bool false) ∧
      compared .empty "<" (.bool true) (.int 1) = .ok (bool false) ∧
      compared .empty ">" (.bool true) (.int 1) = .ok (bool false) ∧ ¬Coherent .empty (.bool true) (.int 1) := by
  have hm : Mixed (.bool true) (.int 1) := .inl ⟨rfl, rfl⟩
  have hc : ∀ op, compared .empty op (.bool true) (.int 1) = .ok (bool false) :=
    fun op => compared_mixed rfl rfl hm op
  refine ⟨hc _, hc _, hc _, hc _, fun h => ?_⟩
  obtain ⟨equal, he, hn⟩ := h.negation
  cases (hc "==").symm.trans he
  cases (hc "!=").symm.trans hn

end Tree

end Pseudocode
