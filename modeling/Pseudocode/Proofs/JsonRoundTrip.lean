import Mathlib.Data.List.Nodup
import Pseudocode.Proofs.JsonText
import Pseudocode.Proofs.NumberText

/-!
# Written JSON is read back

A value is readable if its whole numbers are not too long and the names in each of its records differ. A readable value
that was written is read back as it was (`read_write`): where a value is wanted, the machine goes over its text and
takes the value (`Readable.reads`), by induction on the value.
-/

namespace Pseudocode.Json

/-- The values that can be read. -/
inductive Readable : Json → Prop
  | null : Readable .null
  | bool (b : Bool) : Readable (.bool b)
  | whole {n : Int} (h : (Nat.toDigits 10 n.natAbs).length ≤ digitLimit) : Readable (.whole n)
  | real (x : Float) : Readable (.real x)
  | text (s : String) : Readable (.text s)
  | list {items : List Json} (h : ∀ v ∈ items, Readable v) : Readable (.list items)
  | record {fields : List (String × Json)} (hn : (fields.map Prod.fst).Nodup) (h : ∀ f ∈ fields, Readable f.2) :
    Readable (.record fields)

/-! ## Lexemes one after the other -/

theorem lexemes_blank (pos : Nat) (rest : List Char) : lexemes pos (' ' :: rest) = lexemes (pos + 1) rest := by
  rw [lexemes]
  rfl

theorem lexemes_cons {c : Char} {more rest : List Char} {l : Lexeme} {pos : Nat} (hc : isGap c = false)
    (h : lexeme pos c (more ++ rest) = (l, more.length)) :
    lexemes pos (c :: more ++ rest) = (pos, l) :: lexemes (pos + (c :: more).length) rest := by
  have hg : ¬isGap c = true := by simp [hc]
  rw [List.cons_append, lexemes, if_neg hg, h]
  simp only [List.drop_left, List.length_cons, Nat.add_comm, Nat.add_left_comm]

theorem Lexes.lexemes {cs rest : List Char} {l : Lexeme} (h : Lexes cs l) (hr : Closing rest) (pos : Nat) :
    lexemes pos (cs ++ rest) = (pos, l) :: lexemes (pos + cs.length) rest := by
  obtain ⟨c, more, rfl, hc, hl⟩ := h pos rest hr
  exact lexemes_cons hc hl

theorem lexemes_quoted (s : String) (pos : Nat) (rest : List Char) :
    lexemes pos ((quoted s).toList ++ rest) = (pos, .text s) :: lexemes (pos + (quoted s).toList.length) rest := by
  have h := lexeme_quoted s pos rest
  rw [List.append_cons] at h
  rw [toList_quoted]
  exact lexemes_cons (by decide) (by simpa using h)

theorem lexes_quoted (s : String) : Lexes (quoted s).toList (.text s) := by
  intro pos rest _
  refine ⟨'"', body s.toList ++ ['"'], toList_quoted s, by decide, ?_⟩
  simpa using lexeme_quoted s pos rest

theorem lexes_null : Lexes "null".toList (.plain .null) := by
  intro pos rest _
  exact ⟨'n', "ull".toList, rfl, by decide, rfl⟩

theorem lexes_bool (b : Bool) : Lexes (write (.bool b)).toList (.plain (.bool b)) := by
  intro pos rest _
  cases b with
  | true => exact ⟨'t', "rue".toList, rfl, by decide, rfl⟩
  | false => exact ⟨'f', "alse".toList, rfl, by decide, rfl⟩

/-! ## Values -/

open Reading

theorem finish_cons {size place : Nat} {l : Lexeme} {r next : Reading} (h : r.feed place l = .ok next)
    (rest : List (Nat × Lexeme)) : finish size ((place, l) :: rest) r = finish size rest next := by
  simp only [finish, h]

/-- Where a value may stand. -/
def Awaits (want : Want) : Prop :=
  want = .value ∨ want = .item

theorem feed_value {want : Want} (hw : Awaits want) {place : Nat} {stack : List Open} {l : Lexeme} {r : Reading}
    (h : feedValue place stack l = .ok r) : feed place l ⟨stack, want⟩ = .ok r := by
  rcases hw with rfl | rfl
  · exact h
  · unfold feed
    split <;> simp_all [feedValue]

/-- A text is read as a value wherever a value may stand. -/
def Reads (cs : List Char) (v : Json) : Prop :=
  ∀ (size pos : Nat) (rest : List Char) (stack : List Open) (want : Want), Closing rest → Awaits want →
    finish size (lexemes pos (cs ++ rest)) ⟨stack, want⟩ = finish size (lexemes (pos + cs.length) rest) (take v stack)

theorem Lexes.reads {cs : List Char} {l : Lexeme} {v : Json} (h : Lexes cs l)
    (hv : ∀ place stack, feedValue place stack l = .ok (take v stack)) : Reads cs v := by
  intro size pos rest stack want hr hw
  rw [h.lexemes hr, finish_cons (feed_value hw (hv pos stack))]

theorem closing_cons {c : Char} (h : c = ',' ∨ c = ']' ∨ c = '\x7d') (rest : List Char) : Closing (c :: rest) := by
  intro d hd
  cases hd
  exact h

theorem closing_separator (rest : List Char) : Closing (", ".toList ++ rest) :=
  closing_cons (.inl rfl) (' ' :: rest)

/-! ## Lists -/

theorem lexemes_mark {c : Char} {l : Lexeme} (hc : isGap c = false) (h : ∀ pos rest, lexeme pos c rest = (l, 0))
    (pos : Nat) (rest : List Char) : lexemes pos (c :: rest) = (pos, l) :: lexemes (pos + 1) rest := by
  have hl : lexeme pos c ([] ++ rest) = (l, ([] : List Char).length) := h pos rest
  exact lexemes_cons hc hl

theorem length_separator : ", ".toList.length = 2 :=
  rfl

theorem lexemes_separator (pos : Nat) (rest : List Char) :
    lexemes pos (", ".toList ++ rest) = (pos, .comma) :: lexemes (pos + 2) rest :=
  (lexemes_mark (by decide) (fun _ _ => rfl) pos (' ' :: rest)).trans (congrArg _ (lexemes_blank (pos + 1) rest))

theorem reads_items {items : List Json} (h : ∀ v ∈ items, Reads (write v).toList v) (hne : items ≠ [])
    (size pos : Nat) (rest : List Char) (done : List Json) (stack : List Open) {want : Want} (hw : Awaits want) :
    finish size (lexemes pos ((String.intercalate ", " (writeItems items)).toList ++ ']' :: rest))
        ⟨.list done :: stack, want⟩ =
      finish size (lexemes (pos + ((String.intercalate ", " (writeItems items)).toList.length + 1)) rest)
        (take (.list (done.reverse ++ items)) stack) := by
  induction items generalizing pos done want with
  | nil => exact absurd rfl hne
  | cons v items ih =>
    have hv := h v (by simp)
    cases items with
    | nil =>
      rw [writeItems, writeItems, String.intercalate_singleton, hv size pos _ _ want (closing_cons (by simp) rest) hw,
        lexemes_mark (by decide) (fun _ _ => rfl), finish_cons rfl, Nat.add_assoc, List.reverse_cons]
    | cons w items =>
      -- Behind the comma a value is wanted, and no longer an item, so the induction is over what is awaited too.
      have hi := ih (fun u hu => h u (by simp [hu])) (by simp) (pos + (write v).toList.length + 2) (v :: done)
        (.inl rfl)
      rw [writeItems, writeItems, String.intercalate_cons_cons, ← writeItems, String.toList_append,
        String.toList_append, List.append_assoc, List.append_assoc, hv size pos _ _ want (closing_separator _) hw,
        lexemes_separator, finish_cons rfl, hi, List.reverse_cons, ← List.append_cons]
      simp only [List.length_append, length_separator, Nat.add_assoc]

theorem reads_list {items : List Json} (h : ∀ v ∈ items, Reads (write v).toList v) :
    Reads (write (.list items)).toList (.list items) := by
  intro size pos rest stack want _ hw
  rw [write, String.toList_append, String.toList_append, List.append_assoc, List.append_assoc]
  refine (congrArg (finish size · _) (lexemes_mark (by decide) (fun _ _ => rfl) pos _)).trans ?_
  rw [finish_cons (feed_value hw rfl)]
  by_cases hne : items = []
  · subst hne
    refine (congrArg (finish size · _) (lexemes_mark (by decide) (fun _ _ => rfl) (pos + 1) _)).trans ?_
    exact finish_cons rfl _
  · refine (reads_items h hne size (pos + 1) rest [] stack (.inr rfl)).trans ?_
    simp [Nat.add_assoc, Nat.add_comm]

/-! ## Records -/

theorem reads_name (size pos : Nat) (k : String) (rest : List Char) (done : List (String × Json)) (old : String)
    (stack : List Open) {want : Want} (hw : want = .name ∨ want = .firstName) :
    finish size (lexemes pos ((quoted k ++ ": ").toList ++ rest)) ⟨.record done old :: stack, want⟩ =
      finish size (lexemes (pos + (quoted k ++ ": ").toList.length) rest) ⟨.record done k :: stack, .value⟩ := by
  have hc : lexemes (pos + (quoted k).toList.length) (": ".toList ++ rest) =
      (pos + (quoted k).toList.length, .colon) :: lexemes (pos + (quoted k).toList.length + 1 + 1) rest :=
    (lexemes_mark (by decide) (fun _ _ => rfl) _ (' ' :: rest)).trans (congrArg _ (lexemes_blank _ rest))
  have hf (place : Nat) : feed place (.text k) ⟨.record done old :: stack, want⟩ =
      .ok ⟨.record done k :: stack, .colon⟩ := by
    rcases hw with rfl | rfl <;> rfl
  have hl : (quoted k ++ ": ").toList.length = (quoted k).toList.length + (1 + 1) := by
    rw [String.toList_append, List.length_append]
    rfl
  rw [hl, String.toList_append, List.append_assoc, lexemes_quoted, finish_cons (hf pos), hc, finish_cons rfl,
    Nat.add_assoc, Nat.add_assoc]

theorem reads_fields {fields : List (String × Json)} (h : ∀ f ∈ fields, Reads (write f.2).toList f.2)
    (hne : fields ≠ []) (size pos : Nat) (rest : List Char) (done : List (String × Json)) (old : String)
    (stack : List Open) {want : Want} (hw : want = .name ∨ want = .firstName) :
    finish size (lexemes pos ((String.intercalate ", " (writeFields fields)).toList ++ '\x7d' :: rest))
        ⟨.record done old :: stack, want⟩ =
      finish size (lexemes (pos + ((String.intercalate ", " (writeFields fields)).toList.length + 1)) rest)
        (take (recordOf (fields.reverse ++ done)) stack) := by
  induction fields generalizing pos done old want with
  | nil => exact absurd rfl hne
  | cons f fields ih =>
    obtain ⟨k, v⟩ := f
    have hv : Reads (write v).toList v := h (k, v) (by simp)
    cases fields with
    | nil =>
      rw [writeFields, writeFields, String.intercalate_singleton, String.toList_append, List.append_assoc,
        reads_name size pos k _ done old stack hw, hv size _ _ _ _ (closing_cons (by simp) rest) (.inl rfl),
        lexemes_mark (by decide) (fun _ _ => rfl), finish_cons rfl, List.length_append, List.reverse_singleton,
        List.singleton_append]
      simp only [Nat.add_assoc]
    | cons g fields =>
      have hi := ih (fun u hu => h u (by simp [hu])) (by simp)
        (pos + (quoted k ++ ": ").toList.length + (write v).toList.length + 2) ((k, v) :: done) k (.inl rfl)
      obtain ⟨l, w⟩ := g
      rw [writeFields, writeFields, String.intercalate_cons_cons, ← writeFields, String.toList_append,
        String.toList_append, String.toList_append, List.append_assoc, List.append_assoc, List.append_assoc,
        reads_name size pos k _ done old stack hw, hv size _ _ _ _ (closing_separator _) (.inl rfl),
        lexemes_separator, finish_cons rfl, hi, List.reverse_cons (a := (k, v)), ← List.append_cons]
      simp only [List.length_append, length_separator, Nat.add_assoc]

theorem put_new {α : Type} {k : String} {fields : List (String × α)} (h : k ∉ fields.map Prod.fst) (v : α) :
    put k v fields = fields ++ [(k, v)] := by
  induction fields with
  | nil => rfl
  | cons f fields ih =>
    obtain ⟨l, w⟩ := f
    have hl : ¬(l == k) = true := fun hl => h (by simp [eq_of_beq hl])
    rw [put, if_neg hl, ih (fun hm => h (List.mem_cons_of_mem l hm)), List.cons_append]

/-- Fields with different names are kept as they come. -/
theorem recordOf_nodup {fields : List (String × Json)} (h : (fields.map Prod.fst).Nodup) :
    recordOf fields = .record fields.reverse := by
  refine congrArg Json.record ?_
  -- The fields come last first, and the fold begins with the last one here: the first of the record.
  induction fields with
  | nil => rfl
  | cons f fields ih =>
    obtain ⟨hf, h⟩ := List.nodup_cons.mp h
    rw [List.foldr_cons, ih h, List.reverse_cons]
    exact put_new (by simpa using hf) f.2

theorem reads_record {fields : List (String × Json)} (hn : (fields.map Prod.fst).Nodup)
    (h : ∀ f ∈ fields, Reads (write f.2).toList f.2) : Reads (write (.record fields)).toList (.record fields) := by
  intro size pos rest stack want _ hw
  have hn' : (fields.reverse.map Prod.fst).Nodup := by
    rw [List.map_reverse]
    exact List.nodup_reverse.mpr hn
  rw [write, String.toList_append, String.toList_append, List.append_assoc, List.append_assoc]
  refine (congrArg (finish size · _) (lexemes_mark (by decide) (fun _ _ => rfl) pos _)).trans ?_
  rw [finish_cons (feed_value hw rfl)]
  by_cases hne : fields = []
  · subst hne
    refine (congrArg (finish size · _) (lexemes_mark (by decide) (fun _ _ => rfl) (pos + 1) _)).trans ?_
    exact finish_cons rfl _
  · refine (reads_fields h hne size (pos + 1) rest [] "" stack (.inr rfl)).trans ?_
    rw [List.append_nil, recordOf_nodup hn', List.reverse_reverse]
    simp [Nat.add_assoc, Nat.add_comm]

/-! ## Whole texts -/

/-- Where a value is wanted, what was written for a readable value is read as that value. -/
theorem Readable.reads {v : Json} (h : Readable v) : Reads (write v).toList v := by
  induction h with
  | null => exact lexes_null.reads fun _ _ => rfl
  | bool b => exact (lexes_bool b).reads fun _ _ => rfl
  | whole h =>
    rw [write]
    exact (lexes_whole h).reads fun _ _ => rfl
  | real x =>
    rw [write]
    exact (lexes_real x).reads fun _ _ => rfl
  | text s =>
    rw [write]
    exact (lexes_quoted s).reads fun _ _ => rfl
  | list _ ih => exact reads_list ih
  | record hn _ ih => exact reads_record hn ih

/-- No lexeme starts with a mark of the byte order. -/
theorem lexeme_mark (pos : Nat) (rest : List Char) : lexeme pos (Char.ofNat 0xfeff) rest = (.strange, 0) := by
  rfl

theorem Reads.head {cs : List Char} {v : Json} (h : Reads cs v) : cs.head? ≠ some (Char.ofNat 0xfeff) := by
  intro hc
  obtain ⟨more, rfl⟩ := List.head?_eq_some_iff.mp hc
  have hr := h 0 0 [] [] .value (fun _ hc => by cases hc) (.inl rfl)
  rw [List.append_nil, lexemes_mark (by decide) lexeme_mark] at hr
  simp [lexemes, finish, feed, feedValue, take] at hr

/-- A readable value that was written is read back. -/
theorem read_write {v : Json} (h : Readable v) : read v.write = .ok v := by
  have hr := h.reads
  have hb : ¬(v.write.toList.head? == some (Char.ofNat 0xfeff)) = true := fun hc => hr.head (eq_of_beq hc)
  have hf := hr v.write.toList.length 0 [] [] .value (fun _ hc => by cases hc) (.inl rfl)
  rw [List.append_nil] at hf
  unfold read
  dsimp only
  rw [if_neg hb, Reading.start, hf]
  simp [lexemes, take, finish]

end Pseudocode.Json
