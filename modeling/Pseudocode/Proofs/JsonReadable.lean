import Pseudocode.Proofs.JsonRoundTrip

/-!
# What is read can be written and read again

Every value that the machine has read so far is readable (`Reading.Sound`): its numbers come from few enough digits, and
a name that comes again in a record takes the place of the old one. A lexeme keeps this (`feed_sound`), so what is read
in the end is readable (`readable_of_read`), and writing it down and reading it again gives the same value.
-/

namespace Pseudocode.Json

open Reading Text

/-! ## Lexemes -/

/-- The value of a lexeme is readable, if it has one. -/
def Lexeme.Sound (l : Lexeme) : Prop :=
  ∀ v, l = .plain v → Readable v

theorem digitValue?_lt (c : Char) : (digitValue? c).getD 0 < 10 := by
  unfold digitValue?
  cases h : digitZeros.find? fun first => first ≤ c.toNat && c.toNat < first + 10 with
  | none => simp
  | some first =>
    have hf := List.find?_some h
    simp only [Bool.and_eq_true, decide_eq_true_eq] at hf
    simp only [Option.map_some, Option.getD_some]
    omega

theorem numeral_lt (cs : List Char) : numeral cs < 10 ^ cs.length := by
  induction cs using List.reverseRecOn with
  | nil => decide
  | append_singleton cs c ih =>
    have hd := digitValue?_lt c
    have hc : numeral [c] = (digitValue? c).getD 0 := by simp [numeral]
    rw [numeral_append, hc, List.length_append, List.length_singleton, Nat.pow_one, Nat.pow_succ]
    omega

theorem readable_numeral {cs : List Char} (h : cs.length ≤ digitLimit) (negative : Bool) :
    Readable (.whole (if negative then -(numeral cs : Int) else numeral cs)) := by
  have hn : (if negative then -(numeral cs : Int) else numeral cs).natAbs = numeral cs := by
    cases negative <;> simp
  refine .whole ?_
  rw [hn, Nat.length_toDigits_le_iff (by decide) (by decide)]
  exact Nat.lt_of_lt_of_le (numeral_lt cs) (Nat.pow_le_pow_right (by decide) h)

theorem readable_count {n : Nat} (h : n < 10 ^ digitLimit) : Readable (.whole n) := by
  refine .whole ?_
  rw [Int.natAbs_natCast, Nat.length_toDigits_le_iff (by decide) (by decide)]
  exact h

theorem sound_number {negative : Bool} {cs : List Char} {l : Lexeme} {size : Nat}
    (h : number? negative cs = some (l, size)) : l.Sound := by
  rintro v rfl
  unfold number? at h
  extract_lets whole rest fraction pointed exponent size n e x at h
  by_cases hw : whole.isEmpty = true
  · rw [if_pos hw] at h
    cases h
  rw [if_neg hw] at h
  by_cases hp : (fraction.isEmpty && exponent.isNone) = true
  · rw [if_pos hp, Option.some.injEq, Prod.mk.injEq] at h
    by_cases hd : digitLimit < whole.length
    · rw [if_pos hd] at h
      cases h.1
    · rw [if_neg hd] at h
      cases h.1
      exact readable_numeral (Nat.le_of_not_lt hd) negative
  · rw [if_neg hp, Option.some.injEq, Prod.mk.injEq] at h
    cases h.1
    exact .real _

theorem readable_words : ∀ w ∈ words, Readable w.2 := by
  simp only [words, List.forall_mem_cons, List.not_mem_nil, false_implies, implies_true, and_true]
  exact ⟨.null, .bool true, .bool false, .real _, .real _, .real _⟩

theorem sound_lexeme (pos : Nat) (c : Char) (rest : List Char) : (lexeme pos c rest).1.Sound := by
  unfold lexeme
  split
  case h_7 => split <;> exact fun v hv => by cases hv
  case h_8 =>
    split
    · rename_i w v hw
      rintro u hu
      cases hu
      exact readable_words (w, v) (List.mem_of_find?_eq_some hw)
    · split
      · rename_i h
        split at h <;> exact sound_number h
      · exact fun v hv => by cases hv
  all_goals exact fun v hv => by cases hv

theorem sound_lexemes (pos : Nat) (cs : List Char) : ∀ p ∈ lexemes pos cs, p.2.Sound := by
  fun_induction lexemes pos cs with
  | case1 => simp
  | case2 pos c rest hc ih => exact ih
  | case3 pos c rest hc l size hl ih =>
    have hs := sound_lexeme pos c rest
    rw [hl] at hs
    exact List.forall_mem_cons.mpr ⟨hs, ih⟩

/-! ## Records -/

section

variable {α : Type}

theorem mem_put {k : String} {v : α} {fields : List (String × α)} {f : String × α} (h : f ∈ put k v fields) :
    f.2 = v ∨ f ∈ fields := by
  induction fields with
  | nil => exact .inl (by rw [List.mem_singleton.mp h])
  | cons g fields ih =>
    obtain ⟨l, w⟩ := g
    rw [put] at h
    split at h
    · rcases List.mem_cons.mp h with rfl | h
      · exact .inl rfl
      · exact .inr (List.mem_cons_of_mem _ h)
    · rcases List.mem_cons.mp h with rfl | h
      · exact .inr (by simp)
      · exact (ih h).imp_right (List.mem_cons_of_mem _)

theorem names_put (k : String) (v : α) (fields : List (String × α)) :
    (put k v fields).map Prod.fst =
      if k ∈ fields.map Prod.fst then fields.map Prod.fst else fields.map Prod.fst ++ [k] := by
  induction fields with
  | nil => rfl
  | cons g fields ih =>
    obtain ⟨l, w⟩ := g
    rw [put]
    by_cases hl : l = k
    · simp [hl]
    · have hk : ¬k = l := fun h => hl h.symm
      rw [if_neg (by simpa using hl), List.map_cons, ih, List.map_cons]
      by_cases hm : k ∈ fields.map Prod.fst
      · rw [if_pos hm, if_pos (List.mem_cons_of_mem _ hm)]
      · rw [if_neg hm, if_neg (by simpa [hk] using hm), List.cons_append]

theorem nodup_put {fields : List (String × α)} (h : (fields.map Prod.fst).Nodup) (k : String) (v : α) :
    ((put k v fields).map Prod.fst).Nodup := by
  rw [names_put]
  split_ifs with hk
  · exact h
  · exact List.nodup_append.mpr ⟨h, List.nodup_singleton k, by
      intro a ha b hb hab
      rw [List.mem_singleton.mp hb] at hab
      exact hk (hab ▸ ha)⟩

theorem lookup_of_mem {fields : List (String × α)} (hn : (fields.map Prod.fst).Nodup) {f : String × α}
    (h : f ∈ fields) : fields.lookup f.1 = some f.2 := by
  obtain ⟨before, after, rfl⟩ := List.append_of_mem h
  refine List.lookup_eq_some_iff.mpr ⟨before, after, rfl, fun g hg => ?_⟩
  rw [bne_iff_ne]
  intro hfg
  rw [List.map_append, List.map_cons] at hn
  exact (List.nodup_append.mp hn).2.2 g.1 (List.mem_map_of_mem hg) f.1 (by simp) hfg.symm

theorem lookup_put_ne {k l : String} (h : l ≠ k) (v : α) (fields : List (String × α)) :
    (put k v fields).lookup l = fields.lookup l := by
  have hlk : (l == k) = false := beq_eq_false_iff_ne.mpr h
  induction fields with
  | nil => rw [put, List.lookup_cons, hlk]
  | cons f fields ih =>
    obtain ⟨k', w⟩ := f
    rw [put]
    split
    case isTrue hk => rw [eq_of_beq hk, List.lookup_cons, List.lookup_cons, hlk]
    case isFalse => rw [List.lookup_cons, List.lookup_cons, ih]

end

/-- The fields of a readable record with one of them set. -/
theorem Readable.put {fields : List (String × Json)} {v : Json} (h : Readable (.record fields)) (hv : Readable v)
    (k : String) : Readable (.record (put k v fields)) := by
  cases h with
  | record hn h =>
    refine .record (nodup_put hn k v) fun f hf => ?_
    rcases mem_put hf with hf | hf
    · rw [hf]
      exact hv
    · exact h f hf

theorem readable_fields {α : Type} {l : List (String × α)} (hn : (l.map Prod.fst).Nodup) {f : α → Json}
    (hf : ∀ a, Readable (f a)) : Readable (.record (l.map fun p => (p.1, f p.2))) := by
  refine .record ?_ ?_
  · rwa [List.map_map]
  · intro p hp
    obtain ⟨q, -, rfl⟩ := List.mem_map.mp hp
    exact hf q.2

theorem readable_items {α : Type} (l : List α) {f : α → Json} (hf : ∀ a, Readable (f a)) : Readable (.list (l.map f)) :=
  .list fun v hv => by
    obtain ⟨a, -, rfl⟩ := List.mem_map.mp hv
    exact hf a

theorem lookup_fields (v : Json) (name : String) : v.fields.lookup name = v.field? name := by
  cases v <;> rfl

theorem readable_of_lookup {fields : List (String × Json)} (h : Readable (.record fields)) {name : String} {w : Json}
    (hw : fields.lookup name = some w) : Readable w := by
  obtain ⟨before, after, rfl, -⟩ := List.lookup_eq_some_iff.mp hw
  cases h with
  | record _ h => exact h (name, w) (by simp)

theorem readable_empty : Readable (.record []) :=
  .record List.nodup_nil (List.forall_mem_nil _)

theorem Readable.fields {v : Json} (h : Readable v) : Readable (.record v.fields) := by
  cases v with
  | record fields => exact h
  | null | bool | whole | real | text | list => exact readable_empty

theorem Readable.field {v w : Json} (h : Readable v) {name : String} (hw : v.field? name = some w) : Readable w :=
  readable_of_lookup h.fields ((lookup_fields v name).trans hw)

theorem readable_recordOf {fields : List (String × Json)} (h : ∀ f ∈ fields, Readable f.2) :
    Readable (recordOf fields) := by
  unfold recordOf
  induction fields with
  | nil => exact .record (by simp) (by simp)
  | cons f fields ih =>
    obtain ⟨hf, h⟩ := List.forall_mem_cons.mp h
    exact (ih h).put hf f.1

/-! ## The machine -/

/-- The parts read so far are readable. -/
def Open.Sound : Open → Prop
  | .list items => ∀ v ∈ items, Readable v
  | .record fields _ => ∀ f ∈ fields, Readable f.2

/-- All that was read so far is readable. -/
structure Reading.Sound (r : Reading) : Prop where
  stack : ∀ o ∈ r.stack, o.Sound
  done : ∀ v, r.want = .nothing v → Readable v

theorem sound_take {v : Json} {stack : List Open} (hv : Readable v) (hs : ∀ o ∈ stack, o.Sound) :
    (take v stack).Sound := by
  cases stack with
  | nil =>
    refine ⟨hs, fun u hu => ?_⟩
    cases hu
    exact hv
  | cons o stack =>
    obtain ⟨ho, hrest⟩ := List.forall_mem_cons.mp hs
    cases o with
    | list items =>
      exact ⟨List.forall_mem_cons.mpr ⟨List.forall_mem_cons.mpr ⟨hv, ho⟩, hrest⟩, fun u hu => by cases hu⟩
    | record fields name =>
      exact ⟨List.forall_mem_cons.mpr ⟨List.forall_mem_cons.mpr ⟨hv, ho⟩, hrest⟩, fun u hu => by cases hu⟩

theorem sound_feedValue {place : Nat} {stack : List Open} {l : Lexeme} {next : Reading} (hl : l.Sound)
    (hs : ∀ o ∈ stack, o.Sound) (h : feedValue place stack l = .ok next) : next.Sound := by
  unfold feedValue at h
  split at h <;> cases h
  · exact ⟨List.forall_mem_cons.mpr ⟨List.forall_mem_nil _, hs⟩, fun u hu => by cases hu⟩
  · exact ⟨List.forall_mem_cons.mpr ⟨List.forall_mem_nil _, hs⟩, fun u hu => by cases hu⟩
  · exact sound_take (.text _) hs
  · exact sound_take (hl _ rfl) hs

theorem sound_feedName {place : Nat} {fields : List (String × Json)} {stack : List Open} {l : Lexeme} {next : Reading}
    (hf : ∀ f ∈ fields, Readable f.2) (hs : ∀ o ∈ stack, o.Sound) (h : feedName place fields stack l = .ok next) :
    next.Sound := by
  unfold feedName at h
  split at h <;> cases h
  exact ⟨List.forall_mem_cons.mpr ⟨hf, hs⟩, fun u hu => by cases hu⟩

/-- A lexeme keeps what was read readable. -/
theorem Reading.Sound.feed {r next : Reading} {place : Nat} {l : Lexeme} (hr : r.Sound) (hl : l.Sound)
    (h : r.feed place l = .ok next) : next.Sound := by
  have hopen {o : Open} {rest : List Open} (ho : r.stack = o :: rest) : o.Sound ∧ ∀ o ∈ rest, o.Sound :=
    List.forall_mem_cons.mp (ho ▸ hr.stack)
  -- New values come from closing brackets, and from the lexemes that stand for a value; the rest only moves on.
  unfold Reading.feed at h
  split at h
  case h_1 items rest hw hs =>
    cases h
    exact sound_take (.list (List.forall_mem_nil _)) (hopen hs).2
  case h_2 fields name rest hw hs =>
    cases h
    exact sound_take (.record List.nodup_nil (List.forall_mem_nil _)) (hopen hs).2
  case h_3 items rest hw hs =>
    cases h
    exact sound_take (.list fun v hv => (hopen hs).1 v (List.mem_reverse.mp hv)) (hopen hs).2
  case h_4 fields name rest hw hs =>
    cases h
    exact sound_take (readable_recordOf (hopen hs).1) (hopen hs).2
  case h_5 items rest hw hs =>
    cases h
    exact ⟨hs ▸ hr.stack, fun u hu => by cases hu⟩
  case h_6 fields name rest hw hs =>
    cases h
    exact ⟨List.forall_mem_cons.mpr (hopen hs), fun u hu => by cases hu⟩
  case h_7 hw =>
    cases h
    exact ⟨hr.stack, fun u hu => by cases hu⟩
  case h_8 hw => exact sound_feedValue hl hr.stack h
  case h_9 hw _ => exact sound_feedValue hl hr.stack h
  case h_10 fields name rest hw hs _ => exact sound_feedName (hopen hs).1 (hopen hs).2 h
  case h_11 fields name rest hw hs => exact sound_feedName (hopen hs).1 (hopen hs).2 h
  case h_12 => cases h

/-- What the machine reads in the end is readable. -/
theorem Reading.Sound.finish {ls : List (Nat × Lexeme)} (hl : ∀ p ∈ ls, p.2.Sound) {r : Reading} (hr : r.Sound)
    {size : Nat} {v : Json} (h : finish size ls r = .ok v) : Readable v := by
  induction ls generalizing r with
  | nil =>
    obtain ⟨stack, want⟩ := r
    cases want with
    | nothing u =>
      cases h
      exact hr.done v rfl
    | value | item | firstName | name | colon | comma => cases h
  | cons p ls ih =>
    obtain ⟨hp, hl⟩ := List.forall_mem_cons.mp hl
    rw [Reading.finish] at h
    split at h
    · cases h
    · rename_i next hf
      exact ih hl (hr.feed hp hf) h

theorem readable_of_read {s : String} {v : Json} (h : read s = .ok v) : Readable v := by
  have hstart : Reading.start.Sound := ⟨List.forall_mem_nil _, fun u hu => by cases hu⟩
  unfold read at h
  dsimp only at h
  split at h
  · cases h
  split at h
  · rename_i u hf
    cases h
    exact hstart.finish (sound_lexemes 0 s.toList) hf
  · cases h

/-- What was read, and is written, is read again as it was. -/
theorem read_write_of_read {s : String} {v : Json} (h : read s = .ok v) : read v.write = .ok v :=
  read_write (readable_of_read h)

end Pseudocode.Json
