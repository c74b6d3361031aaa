import Mathlib.Data.List.TakeWhile
import Pseudocode.Measure.Log
import Pseudocode.Measure.Tool
import Pseudocode.Proofs.JsonReadable

/-!
# Records on lines of their own

A readable value is written on one line (`Readable.no_break`). So the last line that a tool prints is the record that
it wrote, whatever it has printed before (`lastRecord_write`), and what is read from a log is the records that were put
into it (`LogOf.records`).
-/

namespace Pseudocode.Json

/-! ## Values on one line -/

theorem writeItems_eq (items : List Json) : writeItems items = items.map write := by
  induction items with
  | nil => rfl
  | cons v items ih => rw [writeItems, ih, List.map_cons]

theorem writeFields_eq (fields : List (String × Json)) :
    writeFields fields = fields.map fun f => quoted f.1 ++ ": " ++ write f.2 := by
  induction fields with
  | nil => rfl
  | cons f fields ih => rw [writeFields, ih, List.map_cons]

theorem intercalate_no_break {parts : List String} (h : ∀ s ∈ parts, '\n' ∉ s.toList) :
    '\n' ∉ (String.intercalate ", " parts).toList := by
  induction parts with
  | nil => decide
  | cons s parts ih =>
    obtain ⟨hs, h⟩ := List.forall_mem_cons.mp h
    cases parts with
    | nil => rwa [String.intercalate_singleton]
    | cons t parts =>
      rw [String.intercalate_cons_cons, String.toList_append, String.toList_append, List.mem_append, List.mem_append]
      rintro ((hm | hm) | hm)
      · exact hs hm
      · exact absurd hm (by decide)
      · exact ih h hm

theorem enclosed_no_break {a s b : String} (ha : '\n' ∉ a.toList) (hs : '\n' ∉ s.toList) (hb : '\n' ∉ b.toList) :
    '\n' ∉ (a ++ s ++ b).toList := by
  rw [String.toList_append, String.toList_append, List.mem_append, List.mem_append]
  rintro ((hm | hm) | hm)
  · exact ha hm
  · exact hs hm
  · exact hb hm

/-- What is written is one line. -/
theorem Readable.no_break {v : Json} (h : Readable v) : '\n' ∉ v.write.toList := by
  induction h with
  | null => decide
  | bool b => cases b <;> decide
  | @whole n _ =>
    rw [write]
    exact whole_no_break n
  | real x =>
    rw [write]
    exact real_no_break x
  | text s =>
    rw [write]
    exact quoted_no_break s
  | @list items _ ih =>
    rw [write, writeItems_eq]
    refine enclosed_no_break (by decide) (intercalate_no_break fun s hs => ?_) (by decide)
    obtain ⟨v, hv, rfl⟩ := List.mem_map.mp hs
    exact ih v hv
  | @record fields _ _ ih =>
    rw [write, writeFields_eq]
    refine enclosed_no_break (by decide) (intercalate_no_break fun s hs => ?_) (by decide)
    obtain ⟨f, hf, rfl⟩ := List.mem_map.mp hs
    exact enclosed_no_break (quoted_no_break f.1) (by decide) (ih f hf)

end Pseudocode.Json

namespace Pseudocode

open Text

/-! ## Texts of lines -/

theorem split_line {s : String} (h : '\n' ∉ s.toList) : split '\n' s = [s] := by
  have hs : s.toList.splitOnP (· == '\n') = [s.toList] := by
    refine List.splitOnP_eq_singleton fun c hc => ?_
    rw [beq_eq_false_iff_ne]
    rintro rfl
    exact h hc
  rw [split, List.splitOn, hs, List.map_singleton, String.ofList_toList]

theorem split_break (a b : String) : split '\n' (a ++ "\n" ++ b) = split '\n' a ++ split '\n' b := by
  have h : (a ++ "\n" ++ b).toList = a.toList ++ '\n' :: b.toList := by
    rw [String.toList_append, String.toList_append, List.append_assoc]
    rfl
  rw [split, h, List.splitOn, List.splitOnP_append_cons _ _ (by decide), List.map_append]
  rfl

theorem split_join {lines : List String} (h : ∀ s ∈ lines, '\n' ∉ s.toList) :
    split '\n' (String.join (lines.map (· ++ "\n"))) = lines ++ [""] := by
  induction lines with
  | nil => rfl
  | cons s lines ih =>
    obtain ⟨hs, h⟩ := List.forall_mem_cons.mp h
    rw [List.map_cons, String.join_cons, split_break, split_line hs, ih h, List.singleton_append, List.cons_append]

/-- A text that begins and ends with no blank. -/
structure Trimmed (s : String) : Prop where
  head : ∃ c ∈ s.toList.head?, isBlank c = false
  last : ∃ c ∈ s.toList.getLast?, isBlank c = false

theorem dropWhile_append_trimmed {cs : List Char} (h : ∃ c ∈ cs.head?, isBlank c = false) (before : List Char) :
    (before ++ cs).dropWhile isBlank = before.dropWhile isBlank ++ cs := by
  obtain ⟨c, hc, hb⟩ := h
  obtain ⟨cs, rfl⟩ := List.head?_eq_some_iff.mp hc
  rw [List.dropWhile_append]
  split
  case isTrue he => rw [List.dropWhile_cons_of_neg (by simp [hb]), List.isEmpty_iff.mp he, List.nil_append]
  case isFalse => rfl

/-- Blanks behind a text that ends with none are cut off, and those before it as far as only blanks come before them. -/
theorem trim_eq {s : String} (hs : Trimmed s) (before after : String) (ha : ∀ c ∈ after.toList, isBlank c = true) :
    trim (before ++ s ++ after) = String.ofList (before.toList.dropWhile isBlank) ++ s := by
  have hhead : ∃ c ∈ (s.toList ++ after.toList).head?, isBlank c = false := by
    obtain ⟨c, hc, hb⟩ := hs.head
    obtain ⟨cs, hcs⟩ := List.head?_eq_some_iff.mp hc
    exact ⟨c, by rw [hcs]; rfl, hb⟩
  have hlast : ∃ c ∈ (before.toList.dropWhile isBlank ++ s.toList).reverse.head?, isBlank c = false := by
    obtain ⟨c, hc, hb⟩ := hs.last
    obtain ⟨cs, hcs⟩ := List.getLast?_eq_some_iff.mp hc
    exact ⟨c, by simp [hcs], hb⟩
  have hafter : after.toList.reverse.dropWhile isBlank = [] :=
    List.dropWhile_eq_nil_iff.mpr fun c hc => ha c (List.mem_reverse.mp hc)
  rw [trim, String.toList_append, String.toList_append, List.append_assoc, dropWhile_append_trimmed hhead,
    ← List.append_assoc, List.reverse_append, dropWhile_append_trimmed hlast, hafter, List.nil_append,
    List.reverse_reverse, String.ofList_append, String.ofList_toList]

theorem Trimmed.ne_empty {s : String} (hs : Trimmed s) (before : String) : (before ++ s).isEmpty = false := by
  obtain ⟨c, hc, -⟩ := hs.head
  rw [Bool.eq_false_iff, Ne, String.isEmpty_iff]
  intro he
  have hn : s = "" := (String.append_eq_empty_iff.mp he).2
  rw [hn] at hc
  cases hc

theorem trimmed_record (fields : List (String × Json)) : Trimmed (Json.record fields).write := by
  rw [Json.write]
  refine ⟨⟨'\x7b', ?_, by decide⟩, ⟨'\x7d', ?_, by decide⟩⟩
  · rw [String.toList_append, String.toList_append]
    rfl
  · rw [String.toList_append]
    exact List.getLast?_concat

end Pseudocode

namespace Pseudocode.Measure

open Json Text

/-! ## What a tool prints -/

/-- The record that a tool writes on its last line is found, whatever stands on the lines before. -/
theorem lastRecord_write {fields : List (String × Json)} (h : Readable (.record fields)) {before : String}
    (hb : before = "" ∨ ∃ lines, before = lines ++ "\n") :
    lastRecord (before ++ (Json.record fields).write ++ "\n") = .ok (.record fields) := by
  have ht := trimmed_record fields
  -- Blank lines at the front are trimmed away, but what is left before the record still ends with a break.
  have hbefore : before.toList.dropWhile isBlank = [] ∨
      ∃ lines, before.toList.dropWhile isBlank = lines ++ ['\n'] := by
    rcases hb with rfl | ⟨lines, rfl⟩
    · exact .inl rfl
    · rw [String.toList_append, List.dropWhile_append]
      split
      case isTrue => exact .inl rfl
      case isFalse => exact .inr ⟨_, rfl⟩
  have hlast :
      (split '\n' (String.ofList (before.toList.dropWhile isBlank) ++ (Json.record fields).write)).getLastD "" =
        (Json.record fields).write := by
    rcases hbefore with hd | ⟨lines, hd⟩
    · rw [hd, String.ofList_nil, String.empty_append, split_line h.no_break]
      rfl
    · rw [hd, String.ofList_append, split_break, split_line h.no_break, List.getLastD_concat]
  have hbreak : ∀ c ∈ "\n".toList, isBlank c = true := by
    intro c hc
    rw [List.mem_singleton.mp hc]
    decide
  unfold lastRecord
  rw [trim_eq ht before "\n" hbreak]
  dsimp only
  rw [if_neg (by simp [ht.ne_empty]), hlast, read_write h]
  rfl

/-! ## Logs -/

/-- A record that can be read. -/
def IsRecord (v : Json) : Prop :=
  Readable v ∧ ∃ fields, v = .record fields

theorem IsRecord.trim {v : Json} (h : IsRecord v) : (trim v.write).isEmpty = false := by
  obtain ⟨-, fields, rfl⟩ := h
  have ht := trimmed_record fields
  have he := trim_eq ht "" "" (List.forall_mem_nil _)
  rw [String.empty_append, String.append_empty] at he
  rw [he]
  exact ht.ne_empty _

/-- A log of records, each on a line. -/
structure LogOf (records : List Json) (log : Option String) : Prop where
  isRecord : ∀ r ∈ records, IsRecord r
  text : log.getD "" = String.join ((records.map write).map (· ++ "\n"))

theorem LogOf.lines {records : List Json} {log : Option String} (h : LogOf records log) :
    logLines log = records.map write := by
  have hline : ∀ s ∈ records.map write, '\n' ∉ s.toList := by
    intro s hs
    obtain ⟨r, hr, rfl⟩ := List.mem_map.mp hs
    exact (h.isRecord r hr).1.no_break
  have hkept : ∀ s ∈ records.map write, (!(trim s).isEmpty) = true := by
    intro s hs
    obtain ⟨r, hr, rfl⟩ := List.mem_map.mp hs
    rw [(h.isRecord r hr).trim]
    rfl
  have hend : [""].filter (fun line => !(trim line).isEmpty) = [] := by decide
  rw [logLines, h.text, split_join hline, List.filter_append, List.filter_eq_self.mpr hkept, hend, List.append_nil]

theorem logRecord?_write {r : Json} (h : IsRecord r) : logRecord? r.write = some r := by
  obtain ⟨hr, fields, rfl⟩ := h
  rw [logRecord?, read_write hr]

theorem logRecords_write {records : List Json} (h : ∀ r ∈ records, IsRecord r) :
    logRecords (records.map write) = (records, true) := by
  induction records with
  | nil => rfl
  | cons r records ih =>
    obtain ⟨hr, h⟩ := List.forall_mem_cons.mp h
    simp only [List.map_cons, logRecords, logRecord?_write hr, ih h]

/-- The records that are read from a log are those that were put into it. -/
theorem LogOf.records {records : List Json} {log : Option String} (h : LogOf records log) :
    logRecords (logLines log) = (records, true) := by
  rw [h.lines, logRecords_write h.isRecord]

/-- A log with one more record. -/
theorem LogOf.append {records : List Json} {log : Option String} (h : LogOf records log) {r : Json} (hr : IsRecord r) :
    LogOf (records ++ [r]) (some (log.getD "" ++ (r.write ++ "\n"))) where
  isRecord := List.forall_mem_append.mpr ⟨h.isRecord, List.forall_mem_singleton.mpr hr⟩
  text := by simp [h.text, String.join_append]

end Pseudocode.Measure
