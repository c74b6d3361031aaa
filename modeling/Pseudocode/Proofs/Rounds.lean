import Pseudocode.Proofs.Reports

/-!
# Rounds one after the other

Each round puts its record at the end of the log that it found, and one in which the coverage could not be measured
puts nothing there. What a round finds in the log is the records of the rounds before it (`Leaves.records`), by
induction on these: a record can be read back, as whatever it has from the tools was read before
(`Scene.readable_record`). So a round gets the next number, and is judged by the counts of all rounds before it
(`Leaves.output`).
-/

namespace Pseudocode.Measure

open Json

/-! ## What the tools printed -/

theorem readable_lastRecord {output : String} {v : Json} (h : lastRecord output = .ok v) : Readable v := by
  unfold lastRecord at h
  dsimp only at h
  split at h
  · cases h
    exact readable_empty
  · split at h
    case h_1 => cases h
    case h_2 fields hr =>
      cases h
      exact readable_of_read hr
    case h_3 => cases h

theorem readable_optional {v : Json} (hv : Readable v) (name : String) : Readable (optional name v) := by
  unfold optional
  split
  case h_1 part hp =>
    split
    · exact hv.field hp
    · exact .null
  case h_2 => exact .null

theorem nodup_partFields {v : Json} (hv : Readable v) {name : String} {fields : List (String × Json)}
    (h : partFields name v = .ok fields) : (fields.map Prod.fst).Nodup := by
  have ho := readable_optional hv name
  unfold partFields at h
  split at h
  case h_1 =>
    cases h
    exact List.nodup_nil
  case h_2 hp =>
    cases h
    rw [hp] at ho
    cases ho with
    | record hn _ => exact hn
  case h_3 => cases h

theorem nodup_readTimings {c : ToolRun} {slots : List Slot} (h : readTimings c = .ok slots) :
    (slots.map Slot.name).Nodup := by
  unfold readTimings at h
  obtain ⟨output, -, h⟩ := bind_eq_ok h
  obtain ⟨record, hr, h⟩ := bind_eq_ok h
  obtain ⟨shares, hs, h⟩ := bind_eq_ok h
  have hnames : shares.map Prod.fst = slots.map Slot.name := by
    rw [← List.forall₂_eq_eq_eq, List.forall₂_map_left_iff, List.forall₂_map_right_iff]
    refine (mapM_eq_ok.mp h).imp fun share slot hslot => ?_
    obtain ⟨percent, -, hslot⟩ := bind_eq_ok hslot
    cases hslot
    rfl
  rw [← hnames]
  exact nodup_partFields (readable_lastRecord hr) hs

theorem nodup_readFindings {c : ToolRun} {findings : List (String × Finding)} (h : readFindings c = .ok findings) :
    (findings.map Prod.fst).Nodup := by
  unfold readFindings at h
  obtain ⟨output, -, h⟩ := bind_eq_ok h
  obtain ⟨record, hr, h⟩ := bind_eq_ok h
  obtain ⟨fields, hf, h⟩ := bind_eq_ok h
  cases h
  refine (nodup_partFields (readable_lastRecord hr) hf).sublist (sublist_filterMap ?_ fields)
  intro f g hg
  dsimp only at hg
  split at hg <;> cases hg
  rfl

namespace Scene

theorem nodup_slots (scene : Scene) : (scene.slots.1.map Slot.name).Nodup := by
  unfold slots
  split
  · unfold orNothing
    split
    case h_1 hs => exact nodup_readTimings hs
    case h_2 => exact List.nodup_nil
  · exact List.nodup_nil

theorem nodup_findings (scene : Scene) : (scene.findings.1.map Prod.fst).Nodup := by
  unfold findings
  split
  · unfold orNothing
    split
    case h_1 hf => exact nodup_readFindings hf
    case h_2 => exact List.nodup_nil
  · exact List.nodup_nil

end Scene

/-! ## Records of rounds -/

/-- What is covered can be read again. -/
structure Cover.Sound (c : Cover) : Prop where
  covered : Readable c.covered
  statements : Readable c.statements

theorem readable_numberField {v : Json} (hv : Readable v) (name : String) : Readable (numberField name v) := by
  unfold numberField
  cases h : v.field? name with
  | none => exact .whole (by decide)
  | some w => exact hv.field h

/-- What is covered according to a report that was read. -/
theorem Cover.sound_ofJson {v : Json} (hv : Readable v) : (Cover.ofJson v).Sound :=
  ⟨readable_numberField (readable_optional hv _) _, readable_numberField (readable_optional hv _) _⟩

/-- No count of a round is too long to be read. -/
structure Round.Small (r : Round) : Prop where
  number : r.number < 10 ^ digitLimit
  benches : r.benches < 10 ^ digitLimit
  errors : r.cover.errors.length < 10 ^ digitLimit
  slots : r.slots.length < 10 ^ digitLimit
  judged : r.judged.length < 10 ^ digitLimit

namespace Round

theorem slow?_le {r : Round} {n : Nat} (h : r.slow? = some n) : n ≤ r.slots.length := by
  unfold slow? at h
  split at h
  · cases h
    exact List.countP_le_length
  · cases h

theorem readable_slow {r : Round} (h : r.Small) : Readable ((r.slow?.map fun n => Json.whole n).getD .null) := by
  cases hs : r.slow? with
  | none => exact .null
  | some n => exact readable_count ((slow?_le hs).trans_lt h.slots)

end Round

theorem Scene.readable_record {scene : Scene} {cover : Cover} (hc : cover.Sound) (h : (scene.round cover).Small)
    (now wait : Float) : Readable ((scene.round cover).record now wait) := by
  have hslots : Readable (.record ((scene.round cover).slots.map fun s => (s.name, .real s.percent))) := by
    refine .record ?_ fun f hf => ?_
    · rw [List.map_map]
      exact scene.nodup_slots
    · obtain ⟨s, -, rfl⟩ := List.mem_map.mp hf
      exact .real _
  have hjudged : Readable (.record ((scene.round cover).judged.map fun j => (j.1, .text j.2.2.word))) := by
    refine .record ?_ fun f hf => ?_
    · rw [List.map_map, round, List.map_map]
      exact scene.nodup_findings
    · obtain ⟨j, -, rfl⟩ := List.mem_map.mp hf
      exact .text _
  have hbad : (scene.round cover).bad < 10 ^ digitLimit := List.countP_le_length.trans_lt h.judged
  refine .record (by simp) ?_
  simp only [List.forall_mem_cons, List.not_mem_nil, false_implies, implies_true, and_true]
  exact ⟨readable_count h.number, .real _, .real _, .real _, hc.covered, hc.statements, readable_count h.benches,
    readable_count h.errors, .real _, hslots, Round.readable_slow h, hjudged, readable_count hbad⟩

/-! ## Logs -/

/-- What a round finds, if the coverage was measured and the report can be read. -/
def Scene.round? (scene : Scene) : Option Round :=
  match scene.coverage, scene.report.map Json.read with
  | .finished code _ _, some (.ok (.record fields)) =>
    if code = 0 then some (scene.round (Cover.ofJson (.record fields))) else none
  | _, _ => none

theorem Scene.round_of_some {scene : Scene} {r : Round} (h : scene.round? = some r) :
    ∃ cover errors, cover.Sound ∧ r = scene.round cover ∧ Measure.round scene = roundWith scene errors cover := by
  unfold round? at h
  split at h
  case h_1 code output errors fields hs hw =>
    obtain ⟨text, ht, hr⟩ := Option.map_eq_some_iff.mp hw
    split at h
    case isTrue hcode =>
      cases h
      subst hcode
      exact ⟨_, errors, Cover.sound_ofJson (readable_of_read hr), rfl, round_of_read hs ht hr⟩
    case isFalse => cases h
  case h_2 => cases h

/-- A round in which the coverage was not measured leaves the log as it is. -/
theorem Scene.appended_of_none {scene : Scene} (h : scene.round? = none) : (Measure.round scene).appended = "" := by
  unfold Measure.round
  split
  case h_1 => rfl
  case h_2 code output errors hs =>
    split
    case h_1 text hcode ht =>
      split
      case h_1 => rfl
      case h_2 fields hr =>
        simp [round?, hs, ht, hr, eq_of_beq hcode] at h
      case h_3 => rfl
    case h_2 => rfl

/-- The rounds and the log that scenes leave one after the other, each with the log of those before. -/
inductive Leaves : List Round → Option String → Prop
  | nothing : Leaves [] none
  | next {rounds : List Round} {log : Option String} (h : Leaves rounds log) {scene : Scene} (hl : scene.log = log)
    (hs : ∀ r ∈ scene.round?, r.Small) :
    Leaves (rounds ++ scene.round?.toList) (some (log.getD "" ++ (round scene).appended))

/-- The counts of slow benches in rounds, as far as benches ran. -/
def countsOf (rounds : List Round) : List Int :=
  rounds.filterMap fun r => r.slow?.map Int.ofNat

theorem slowCounts_append (a b : List Json) : slowCounts (a ++ b) = slowCounts a ++ slowCounts b :=
  List.filterMap_append ..

theorem slowCounts_record (r : Round) (now wait : Float) : slowCounts [r.record now wait] = countsOf [r] := by
  have hfield : (r.record now wait).field? "n_below_repo_time" =
      some ((r.slow?.map fun n => Json.whole n).getD .null) := rfl
  cases hs : r.slow? <;> simp [slowCounts, countsOf, hfield, hs]

section

variable {scene : Scene} {records : List Json} (h : LogOf records scene.log) (errors : String) (cover : Cover)

include h

theorem roundWith_appended :
    (roundWith scene errors cover).appended =
      ((scene.round cover).record scene.now (sinceLast scene.now records)).write ++ "\n" := by
  simp only [roundWith, h.records, if_pos]

theorem roundWith_output :
    (roundWith scene errors cover).output = (scene.round cover).text (slowCounts records) := by
  simp only [roundWith, h.records]

end

/-- The log of rounds holds a record of each of them, in their order. -/
theorem Leaves.records {rounds : List Round} {log : Option String} (h : Leaves rounds log) :
    ∃ records, LogOf records log ∧ records.length = rounds.length ∧ slowCounts records = countsOf rounds := by
  induction h with
  | nothing => exact ⟨[], ⟨List.forall_mem_nil _, rfl⟩, rfl, rfl⟩
  | @next rounds log h scene hl hs ih =>
    obtain ⟨records, hr, hlen, hcounts⟩ := ih
    subst hl
    -- The log grows by the record of the round, if there was one.
    cases hround : scene.round? with
    | none =>
      have hlog : LogOf records (some (scene.log.getD "" ++ (round scene).appended)) :=
        ⟨hr.isRecord, by rw [scene.appended_of_none hround, String.append_empty]; exact hr.text⟩
      exact ⟨records, hlog, by simp [hlen], by simp [hcounts]⟩
    | some r =>
      obtain ⟨cover, errors, hc, rfl, hwith⟩ := scene.round_of_some hround
      have hrecord : IsRecord ((scene.round cover).record scene.now (sinceLast scene.now records)) :=
        ⟨scene.readable_record hc (hs _ hround) _ _, _, rfl⟩
      rw [hwith, roundWith_appended hr errors cover]
      refine ⟨_, hr.append hrecord, by simp [hlen], ?_⟩
      rw [slowCounts_append, slowCounts_record, hcounts]
      exact (List.filterMap_append ..).symm

/-- A round has the number after those before it, and is judged by their counts. -/
theorem Leaves.output {rounds : List Round} {log : Option String} (h : Leaves rounds log) {scene : Scene}
    (hl : scene.log = log) {r : Round} (hs : scene.round? = some r) :
    r.number = rounds.length + 1 ∧ (round scene).output = r.text (countsOf rounds) := by
  subst hl
  obtain ⟨records, hr, hlen, hcounts⟩ := h.records
  obtain ⟨cover, errors, -, rfl, hwith⟩ := scene.round_of_some hs
  refine ⟨?_, ?_⟩
  · rw [Scene.round, hr.lines, List.length_map, hlen]
  · rw [hwith, roundWith_output hr, hcounts]

end Pseudocode.Measure
