import Pseudocode.Measure.Verdict
import Pseudocode.Proofs.Parts

/-!
# Results that a fingerprint tells apart

The bytes of a result are the bytes of its parts (`bytesAt_parts`), and the parts give back the result (`parts_inj`). So
the fingerprint of a result is as good as its parts can be told from their characters. `eq_of_fingerprint` says for which
results this is so, and `fingerprint_runTogether` has two results for which it is not.
-/

namespace Pseudocode.Measure

/-! ## The bytes of texts -/

theorem toList_loop (bs : ByteArray) (i : Nat) (r : List UInt8) :
    ByteArray.toList.loop bs i r = r.reverse ++ bs.data.toList.drop i := by
  fun_induction ByteArray.toList.loop bs i r with
  | case1 i r hi ih =>
    have hl : i < bs.data.toList.length := hi
    have hg : bs.get! i = bs.data.toList[i] := getElem!_pos bs.data i hi
    rw [ih, List.drop_eq_getElem_cons hl, hg]
    simp
  | case2 i r hi =>
    rw [List.drop_eq_nil_of_le (Nat.le_of_not_lt hi), List.append_nil]

namespace Sample

/-- The bytes of characters. -/
def encoded (cs : List Char) : List UInt8 :=
  utf8 (String.ofList cs)

theorem utf8_eq (s : String) : utf8 s = encoded s.toList := by
  rw [encoded, String.ofList_toList]

theorem encoded_eq (cs : List Char) : encoded cs = (String.ofList cs).toByteArray.data.toList :=
  (toList_loop (String.ofList cs).toByteArray 0 []).trans (by simp)

theorem encoded_append (cs ds : List Char) : encoded (cs ++ ds) = encoded cs ++ encoded ds := by
  simp only [encoded_eq, String.ofList_append, String.toByteArray_append, ByteArray.data_append, Array.toList_append]

theorem encoded_nil : encoded [] = [] :=
  encoded_eq []

theorem encoded_inj {cs ds : List Char} (h : encoded cs = encoded ds) : cs = ds := by
  rw [encoded_eq, encoded_eq, Array.toList_inj] at h
  exact String.ofList_inj.1 (String.toByteArray_inj.1 (ByteArray.ext h))

/-! ## The parts of results -/

/-- Results that are built from nothing, truth values, whole numbers, texts and lists, with at most so many levels of
lists, and with no list of which some items are not looked at. -/
inductive Plain : Nat → Sample → Prop
  | none {d : Nat} : Plain d none
  | bool {d : Nat} (b : Bool) : Plain d (bool b)
  | int {d : Nat} (n : Int) : Plain d (int n)
  | text {d : Nat} (s : String) : Plain d (text s)
  | list {d : Nat} {items : List Sample} (hl : items.length ≤ itemLimit) (hi : ∀ x ∈ items, Plain d x) :
      Plain (d + 1) (list items)

mutual

/-- The parts that a plain result is written in. -/
def parts : Sample → List Part
  | none => [.none]
  | bool b => [.bool b]
  | int n => [.number (if n < 0 then .minus else .nothing) n.natAbs]
  | text s => [.text s.toList]
  | list items => .number .letter items.length :: partsAll items
  | _ => []

/-- The parts of results, one after the other. -/
def partsAll : List Sample → List Part
  | [] => []
  | x :: rest => parts x ++ partsAll rest

end

theorem toList_int (n : Int) :
    (toString n).toList = (Part.number (if n < 0 then .minus else .nothing) n.natAbs).chars := by
  rw [show toString n = n.repr from rfl, Int.repr_eq_if]
  by_cases hn : n < 0
  · rw [if_neg (by omega), if_pos hn, String.toList_append, Nat.toList_repr, show (-n).toNat = n.natAbs by omega]
    rfl
  · rw [if_pos (by omega), if_neg hn, Nat.toList_repr, show n.toNat = n.natAbs by omega]
    rfl

theorem header_eq (n : Nat) : header "L" n = encoded (Part.number .letter n).chars := by
  rw [header, utf8_eq, String.toList_append, show toString n = n.repr from rfl, Nat.toList_repr]
  rfl

theorem length_bytesAll (depth : Nat) (items : List Sample) : (bytesAll depth items).length = items.length := by
  induction items with
  | nil => simp [bytesAll]
  | cons x items ih => rw [bytesAll, List.length_cons, ih, List.length_cons]

theorem flatten_bytesAll {depth : Nat} {items : List Sample}
    (h : ∀ x ∈ items, bytesAt depth x = encoded (Part.written x.parts)) :
    (bytesAll depth items).flatten = encoded (Part.written (partsAll items)) := by
  induction items with
  | nil => rw [bytesAll, partsAll, Part.written, List.flatMap_nil, encoded_nil, List.flatten_nil]
  | cons x items ih =>
    rw [bytesAll, List.flatten_cons, partsAll, Part.written_append, encoded_append, h x List.mem_cons_self,
      ih fun y hy => h y (List.mem_cons_of_mem _ hy)]

/-- A plain result is written by its parts. -/
theorem bytesAt_parts {d : Nat} {x : Sample} (h : Plain d x) {depth : Nat} (hd : depth + d ≤ depthLimit) :
    bytesAt depth x = encoded (Part.written x.parts) := by
  induction h generalizing depth with
  | none =>
    rw [bytesAt, if_neg (by omega), parts]
    exact utf8_eq "None"
  | bool b =>
    rw [bytesAt, if_neg (by omega), parts]
    cases b with
    | true => exact utf8_eq "True"
    | false => exact utf8_eq "False"
  | int n => rw [bytesAt, if_neg (by omega), parts, utf8_eq, toList_int, Part.written, List.flatMap_singleton]
  | text s =>
    rw [bytesAt, if_neg (by omega), parts, utf8_eq, String.toList_append, Part.written, List.flatMap_singleton]
    rfl
  | @list d items hl _ ih =>
    have hi : ∀ x ∈ items, bytesAt (depth + 1) x = encoded (Part.written x.parts) := fun x hx => ih x hx (by omega)
    rw [bytesAt, if_neg (by omega), parts, List.take_of_length_le (by rwa [length_bytesAll]), flatten_bytesAll hi,
      header_eq, Part.written_cons, encoded_append]

/-! ## From parts to results -/

theorem fills_single {a : Part} (ha : a.holds = 0) {p : Nat} {ps : List Part} (hp : Part.Fills p ps) :
    Part.Fills (p + 1) ([a] ++ ps) :=
  .cons (by rwa [ha, Nat.zero_add])

theorem fills_partsAll {items : List Sample}
    (h : ∀ x ∈ items, ∀ {p : Nat} {ps : List Part}, Part.Fills p ps → Part.Fills (p + 1) (x.parts ++ ps)) {p : Nat}
    {ps : List Part} (hp : Part.Fills p ps) : Part.Fills (items.length + p) (partsAll items ++ ps) := by
  induction items with
  | nil => simpa [partsAll] using hp
  | cons x items ih =>
    have hi := h x List.mem_cons_self (ih fun y hy => h y (List.mem_cons_of_mem _ hy))
    rw [partsAll, List.append_assoc, List.length_cons]
    rwa [show items.length + 1 + p = items.length + p + 1 by omega]

/-- The parts of a plain result make up one value. -/
theorem fills_parts {d : Nat} {x : Sample} (h : Plain d x) {p : Nat} {ps : List Part} (hp : Part.Fills p ps) :
    Part.Fills (p + 1) (x.parts ++ ps) := by
  induction h generalizing p ps with
  | none => exact fills_single rfl hp
  | bool b => exact fills_single rfl hp
  | int n =>
    refine fills_single ?_ hp
    split <;> rfl
  | text s => exact fills_single rfl hp
  | list _ _ ih => exact .cons (fills_partsAll (fun x hx _ _ => ih x hx) hp)

theorem partsAll_inj {e : Nat} {xs ys : List Sample}
    (hx : ∀ x ∈ xs, ∀ {y : Sample} {ps qs : List Part}, Plain e y → x.parts ++ ps = y.parts ++ qs → x = y ∧ ps = qs)
    (hy : ∀ y ∈ ys, Plain e y) (hl : xs.length = ys.length) {ps qs : List Part}
    (h : partsAll xs ++ ps = partsAll ys ++ qs) : xs = ys ∧ ps = qs := by
  induction xs generalizing ys with
  | nil =>
    obtain rfl := List.eq_nil_of_length_eq_zero hl.symm
    exact ⟨rfl, h⟩
  | cons x xs ih =>
    cases ys with
    | nil => cases hl
    | cons y ys =>
      rw [partsAll, partsAll, List.append_assoc, List.append_assoc] at h
      obtain ⟨rfl, ht⟩ := hx x List.mem_cons_self (hy y List.mem_cons_self) h
      obtain ⟨rfl, hpq⟩ := ih (fun x hm => hx x (List.mem_cons_of_mem _ hm))
        (fun y hm => hy y (List.mem_cons_of_mem _ hm)) (Nat.succ.inj hl) ht
      exact ⟨rfl, hpq⟩

theorem sign_inj {n m : Int}
    (h : (if n < 0 then Lead.minus else .nothing) = if m < 0 then .minus else .nothing)
    (ha : n.natAbs = m.natAbs) : n = m := by
  split at h <;> split at h
  · omega
  · cases h
  · cases h
  · omega

theorem sign_ne_letter (n : Int) : (if n < 0 then Lead.minus else .nothing) ≠ .letter := by
  split <;> nofun

/-- The parts of a plain result give it back, whatever follows them. -/
theorem parts_inj {d e : Nat} {x y : Sample} (hx : Plain d x) (hy : Plain e y) {ps qs : List Part}
    (h : x.parts ++ ps = y.parts ++ qs) : x = y ∧ ps = qs := by
  induction hx generalizing e y ps qs with
  | none =>
    cases hy with
    | none => exact ⟨rfl, (List.cons.inj h).2⟩
    | bool _ | int _ | text _ | list _ _ => cases (List.cons.inj h).1
  | bool b =>
    cases hy with
    | bool c =>
      obtain ⟨hb, hpq⟩ := List.cons.inj h
      exact ⟨congrArg Sample.bool (Part.bool.inj hb), hpq⟩
    | none | int _ | text _ | list _ _ => cases (List.cons.inj h).1
  | int n =>
    cases hy with
    | int m =>
      obtain ⟨hn, hpq⟩ := List.cons.inj h
      obtain ⟨hs, ha⟩ := Part.number.inj hn
      exact ⟨congrArg Sample.int (sign_inj hs ha), hpq⟩
    | list _ _ => exact absurd (Part.number.inj (List.cons.inj h).1).1 (sign_ne_letter n)
    | none | bool _ | text _ => cases (List.cons.inj h).1
  | text s =>
    cases hy with
    | text t =>
      obtain ⟨hs, hpq⟩ := List.cons.inj h
      exact ⟨congrArg Sample.text (String.toList_injective (Part.text.inj hs)), hpq⟩
    | none | bool _ | int _ | list _ _ => cases (List.cons.inj h).1
  | @list d xs hl _ ih =>
    cases hy with
    | @list e ys hl' hy =>
      obtain ⟨hn, ht⟩ := List.cons.inj h
      obtain ⟨rfl, hpq⟩ := partsAll_inj (fun x hx _ _ _ hy => ih x hx hy) hy (Part.number.inj hn).2 ht
      exact ⟨rfl, hpq⟩
    | int m => exact absurd (Part.number.inj (List.cons.inj h).1).1.symm (sign_ne_letter m)
    | none | bool _ | text _ => cases (List.cons.inj h).1

/-! ## Telling results apart -/

/-- In a plain result no two neighbouring parts run together. -/
def Apart (x : Sample) : Prop :=
  x.parts.IsChain Part.Apart

/-- In a plain result no two neighbouring parts run together, and no text has anything behind it. -/
def Firm (x : Sample) : Prop :=
  x.parts.IsChain Part.Firm

theorem eq_of_parts {d e : Nat} {x y : Sample} (hx : Plain d x) (hy : Plain e y) (h : x.parts = y.parts) : x = y :=
  (parts_inj hx hy (congrArg (· ++ []) h)).1

/-- Two results are taken for the same if their fingerprints are. -/
theorem allSame_texts {s t : String} : allSame [.text s, .text t] = true ↔ s = t := by
  rw [allSame, List.all_cons, List.all_nil, Bool.and_true, sameJson, beq_iff_eq]

/-- Two plain results with the same bytes are equal if neighbouring parts do not run together in both of them, or not
in one in which no text has anything behind it. So they are taken for the same only if they are, or if the digest
itself does not tell their bytes apart. -/
theorem eq_of_fingerprint {x y : Sample} (hx : Plain depthLimit x) (hy : Plain depthLimit y)
    (hc : x.Apart ∧ y.Apart ∨ x.Firm) :
    (bytesAt 0 x = bytesAt 0 y → x = y) ∧
      (allSame [.text x.fingerprint, .text y.fingerprint] = true →
        x = y ∨ bytesAt 0 x ≠ bytesAt 0 y ∧ digestText (bytesAt 0 x) = digestText (bytesAt 0 y)) := by
  have hb : bytesAt 0 x = bytesAt 0 y → x = y := by
    intro h
    rw [bytesAt_parts hx (Nat.zero_add _).le, bytesAt_parts hy (Nat.zero_add _).le] at h
    have hw := encoded_inj h
    have hfx := fills_parts hx .nil
    have hfy := fills_parts hy .nil
    rw [List.append_nil] at hfx hfy
    apply eq_of_parts hx hy
    rcases hc with ⟨hax, hay⟩ | hf
    · exact Part.eq_of_apart hfx hfy hw hax hay
    · exact Part.eq_of_firm hfx hfy (Nat.le_refl _) hw hf
  refine ⟨hb, fun h => ?_⟩
  have hs : x.fingerprint = y.fingerprint := allSame_texts.1 h
  by_cases he : bytesAt 0 x = bytesAt 0 y
  · exact .inl (hb he)
  · exact .inr ⟨he, hs⟩

/-- Negative numbers side by side, and a text at the end. -/
def signed (n m : Int) : Sample :=
  .list [.none, .list [.int n, .int m], .text "L1"]

/-- A sign tells where a number ends, and so it matters to which of two numbers a digit belongs. -/
theorem eq_of_fingerprint_signed :
    Plain depthLimit (signed (-1) (-23)) ∧ Plain depthLimit (signed (-12) (-3)) ∧ (signed (-1) (-23)).Firm ∧
      bytesAt 0 (signed (-1) (-23)) ≠ bytesAt 0 (signed (-12) (-3)) := by
  have hp : ∀ n m, Plain depthLimit (signed n m) := fun n m => by
    refine .list (by simp [itemLimit]) ?_
    simp only [List.forall_mem_cons]
    refine ⟨.none, .list (by simp [itemLimit]) ?_, .text _, nofun⟩
    simp only [List.forall_mem_cons]
    exact ⟨.int n, .int m, nofun⟩
  have hf : (signed (-1) (-23)).Firm := by
    unfold Firm
    decide
  refine ⟨hp _ _, hp _ _, hf, fun h => ?_⟩
  have he := (eq_of_fingerprint (hp _ _) (hp _ _) (.inr hf)).1 h
  simp [signed] at he

/-- A list of two plain results. -/
def pair (x y : Sample) : Sample :=
  .list [x, y]

theorem plain_pair {x y : Sample} (hx : Plain 7 x) (hy : Plain 7 y) : Plain depthLimit (pair x y) := by
  refine .list (by simp [itemLimit]) ?_
  simp only [List.forall_mem_cons]
  exact ⟨hx, hy, nofun⟩

/-- Where a text holds the letter that texts begin with, it may as well be two texts. -/
theorem bytes_texts (s t u : String) :
    bytesAt 0 (pair (.text s) (.text (t ++ "s" ++ u))) = bytesAt 0 (pair (.text (s ++ "s" ++ t)) (.text u)) := by
  rw [bytesAt_parts (plain_pair (.text _) (.text _)) (Nat.zero_add _).le,
    bytesAt_parts (plain_pair (.text _) (.text _)) (Nat.zero_add _).le]
  simp [pair, parts, partsAll, Part.written, Part.chars]

/-- Two pairs of numbers with the same digits in the same order, and two pairs of texts with the same letters, have the
same bytes and count as the same result. -/
theorem fingerprint_runTogether :
    (Plain depthLimit (pair (.int 1) (.int 23)) ∧ Plain depthLimit (pair (.int 12) (.int 3)) ∧
        pair (.int 1) (.int 23) ≠ pair (.int 12) (.int 3) ∧
        bytesAt 0 (pair (.int 1) (.int 23)) = bytesAt 0 (pair (.int 12) (.int 3)) ∧
        allSame [.text (pair (.int 1) (.int 23)).fingerprint, .text (pair (.int 12) (.int 3)).fingerprint] = true) ∧
      Plain depthLimit (pair (.text "a") (.text "sb")) ∧ Plain depthLimit (pair (.text "as") (.text "b")) ∧
        pair (.text "a") (.text "sb") ≠ pair (.text "as") (.text "b") ∧
        bytesAt 0 (pair (.text "a") (.text "sb")) = bytesAt 0 (pair (.text "as") (.text "b")) := by
  have hp : ∀ n m, Plain depthLimit (pair (.int n) (.int m)) := fun n m => plain_pair (.int n) (.int m)
  have hb : bytesAt 0 (pair (.int 1) (.int 23)) = bytesAt 0 (pair (.int 12) (.int 3)) := by
    rw [bytesAt_parts (hp 1 23) (Nat.zero_add _).le, bytesAt_parts (hp 12 3) (Nat.zero_add _).le]
    exact congrArg encoded (by decide)
  refine ⟨⟨hp _ _, hp _ _, by simp [pair], hb, ?_⟩, plain_pair (.text _) (.text _), plain_pair (.text _) (.text _),
    by simp [pair], bytes_texts "a" "" "b"⟩
  rw [allSame_texts, fingerprint, hb, fingerprint]

end Sample

end Pseudocode.Measure
