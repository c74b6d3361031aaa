import Mathlib.Data.List.Perm.Basic
import Pseudocode.Measure.Coverage
import Pseudocode.Measure.Round
import Pseudocode.Measure.Timing
import Pseudocode.Proofs.Lines
import Pseudocode.Proofs.Step

/-!
# Reports on benches

What the tools find out about the benches of a module is what a round gets to know of it. The self-checks and the times
are written on a line and read from there, bench by bench in the order of their names (`readFindings_report`,
`readTimings_report`). Since each run with parameters adds what it came to and leaves the rest (`Ran.withParams`), a
bench that is judged fine did its work: it gave one result twice, which is none of its parameters, and other results for
some other parameters (`fine_of_verdict`).
-/

namespace Pseudocode.Measure

open Json

/-! ## Parts of records -/

section

variable {name : String} {v : Json}

theorem optional_items {items : List Json} (h : v.field? name = some (.list items)) :
    (optional name v).items = items := by
  rw [optional, h]
  cases items <;> rfl

theorem optional_record {fields : List (String × Json)} (h : v.field? name = some (.record fields))
    (hne : fields ≠ []) : optional name v = .record fields := by
  obtain ⟨f, fields, rfl⟩ := List.exists_cons_of_ne_nil hne
  rw [optional, h]
  rfl

theorem optional_fields {fields : List (String × Json)} (h : v.field? name = some (.record fields)) :
    (optional name v).fields = fields := by
  rw [optional, h]
  cases fields <;> rfl

theorem optional_text {s : String} (h : v.field? name = some (.text s)) :
    (optional name v).text? = if s = "" then none else some s := by
  rw [optional, h]
  by_cases hs : s = ""
  · subst hs
    rfl
  · simp [holds, hs, text?]

theorem partFields_eq {fields : List (String × Json)} (h : v.field? name = some (.record fields)) :
    partFields name v = .ok fields := by
  rw [partFields, optional, h]
  cases fields <;> rfl

end

theorem mapM_eq_ok {α β ε : Type} {f : α → Except ε β} {l : List α} {r : List β} :
    l.mapM f = .ok r ↔ List.Forall₂ (fun a b => f a = .ok b) l r := by
  induction l generalizing r with
  | nil => simp [pure, Except.pure, eq_comm]
  | cons a l ih =>
    rw [List.mapM_cons, List.forall₂_cons_left_iff]
    constructor
    · intro h
      obtain ⟨b, hb, h⟩ := bind_eq_ok h
      obtain ⟨bs, hbs, h⟩ := bind_eq_ok h
      cases h
      exact ⟨b, bs, hb, ih.mp hbs, rfl⟩
    · rintro ⟨b, bs, hb, hbs, rfl⟩
      rw [hb, ih.mpr hbs]
      rfl

/-- The benches of a module have different names if its members do. -/
theorem nodup_benchesOf {members : BenchModule} (h : (members.map Prod.fst).Nodup) :
    ((benchesOf members).map Prod.fst).Nodup := by
  unfold benchesOf
  rw [((List.mergeSort_perm _ _).map Prod.fst).nodup_iff]
  exact h.sublist (List.filter_sublist.map Prod.fst)

/-! ## Self-checks -/

namespace SelfCheck

/-- What is known of a bench from what was put down about it. -/
def finding (c : SelfCheck) : Finding where
  result := if c.result = "" then none else some c.result
  stable := c.stable.map .text
  byParams := c.byParams.map fun p => .text p.2
  params := c.params.map .text
  shares := c.spent.map fun p => p.2.projectShare
  times := c.spent.map fun p => p.2.milliseconds

theorem numbersOf_reals {name : String} {v : Json} {l : List (String × Spent)} {f : Spent → Float}
    (h : v.field? name = some (.record (l.map fun p => (p.1, .real (f p.2))))) :
    numbersOf (optional name v) = l.map fun p => f p.2 := by
  rw [numbersOf, optional_fields h, List.filterMap_map]
  exact List.filterMap_eq_map_iff_forall_eq_some.mpr fun _ _ => rfl

/-- What was put down about a bench is what is known of it. -/
theorem ofJson_toJson (c : SelfCheck) : Finding.ofJson c.toJson = c.finding := by
  have hresult : c.toJson.field? "ret_type" = some (.text c.result) := rfl
  have hstable : c.toJson.field? "fp_stable" = some (.list (c.stable.map .text)) := rfl
  have hby : c.toJson.field? "fp_by_param" = some (.record (c.byParams.map fun p => (p.1, .text p.2))) := rfl
  have hparams : c.toJson.field? "param_fps" = some (.list (c.params.map .text)) := rfl
  have hshares : c.toJson.field? "repo_frac" =
      some (.record (c.spent.map fun p => (p.1, .real p.2.projectShare))) := rfl
  have htimes : c.toJson.field? "repo_tt_ms" =
      some (.record (c.spent.map fun p => (p.1, .real p.2.milliseconds))) := rfl
  rw [Finding.ofJson, optional_text hresult, optional_items hstable, optional_fields hby, optional_items hparams,
    numbersOf_reals hshares, numbersOf_reals htimes, List.map_map]
  rfl

/-- What is put down after the runs with some parameters. -/
structure Ran (m : Member) (tried : List Params) (c : SelfCheck) : Prop where
  nodup_byParams : (c.byParams.map Prod.fst).Nodup
  nodup_spent : (c.spent.map Prod.fst).Nodup
  /-- Each fingerprint is that of a run. -/
  ran : ∀ p ∈ c.byParams, ∃ given ∈ tried, ∃ used v, (m.call given used).1 = .ok v ∧ p.2 = v.fingerprint
  params : c.params = tried.flatMap fun given => given.map fun p => (Sample.ofJson p.2).fingerprint

theorem readable_toJson {m : Member} {tried : List Params} {c : SelfCheck} (h : Ran m tried c) :
    Readable c.toJson := by
  refine .record (by simp) ?_
  simp only [List.forall_mem_cons, List.not_mem_nil, false_implies, implies_true, and_true]
  exact ⟨.text _, readable_items _ .text, readable_fields h.nodup_byParams .text,
    readable_fields h.nodup_spent fun _ => .real _, readable_fields h.nodup_spent fun _ => .real _,
    readable_fields h.nodup_spent fun _ => .real _, readable_items _ .text⟩

/-- A run with parameters adds its fingerprint and those of the parameters. -/
theorem Ran.next {m : Member} {tried : List Params} {c : SelfCheck} (h : Ran m tried c) {given : Params}
    {used : Nat} {v : Sample} (hv : (m.call given used).1 = .ok v) (key : String) (spent : Spent) :
    Ran m (tried ++ [given]) { c with
      byParams := Json.put key v.fingerprint c.byParams
      spent := Json.put key spent c.spent
      params := c.params ++ given.map fun p => (Sample.ofJson p.2).fingerprint } where
  nodup_byParams := nodup_put h.nodup_byParams key v.fingerprint
  nodup_spent := nodup_put h.nodup_spent key spent
  ran p hp := by
    rcases mem_put hp with hp | hp
    · exact ⟨given, by simp, used, v, hv, hp⟩
    · obtain ⟨other, ho, rest⟩ := h.ran p hp
      exact ⟨other, by simp [ho], rest⟩
  params := by simp [h.params]

theorem Ran.withParams {m : Member} {tried more : List Params} {c done : SelfCheck} (h : Ran m tried c)
    {used asked : Nat} (hd : withParams m c used asked more = .ok done) :
    Ran m (tried ++ more) done ∧ done.stable = c.stable := by
  induction more generalizing tried c used asked with
  | nil =>
    cases hd
    rw [List.append_nil]
    exact ⟨h, rfl⟩
  | cons given more ih =>
    rw [SelfCheck.withParams] at hd
    split at hd
    · cases hd
    · rename_i v used' hcall
      have hv : (m.call given used).1 = .ok v := by rw [hcall]
      obtain ⟨hran, hs⟩ := ih (h.next hv _ _) hd
      rw [List.append_assoc] at hran
      exact ⟨hran, hs⟩

/-- What is put down about a bench that ran: two results without parameters, and then those with them. -/
theorem run_ok {m : Member} {c : SelfCheck} (h : run m = .ok c) :
    Ran m m.params c ∧ ∃ v w, (m.call [] 0).1 = .ok v ∧ (m.call [] (m.call [] 0).2).1 = .ok w ∧
      c.stable = [v.fingerprint, w.fingerprint] := by
  unfold run at h
  obtain ⟨first, used, hfirst⟩ : ∃ first used, m.call [] 0 = (first, used) := ⟨_, _, rfl⟩
  simp only [hfirst] at h ⊢
  obtain ⟨second, more, hsecond⟩ : ∃ second more, m.call [] used = (second, more) := ⟨_, _, rfl⟩
  simp only [hsecond] at h ⊢
  cases first with
  | error e => cases h
  | ok v =>
    cases second with
    | error e => cases h
    | ok w =>
      have hstart : Ran m [] (withoutParams m v w) :=
        ⟨List.nodup_nil, List.nodup_singleton _, List.forall_mem_nil _, rfl⟩
      obtain ⟨hran, hs⟩ := hstart.withParams h
      exact ⟨hran, v, w, rfl, rfl, hs⟩

theorem readable_ofMember (m : Member) : Readable (ofMember m).toJson := by
  unfold ofMember
  split
  case h_1 c h => exact readable_toJson (run_ok h).1
  case h_2 e h =>
    have hfailed : Ran m [] (failed e) := ⟨List.nodup_nil, List.nodup_nil, List.forall_mem_nil _, rfl⟩
    exact readable_toJson hfailed

end SelfCheck

/-- The self-checks of the benches are read from what the tool prints. -/
theorem readFindings_report {members : BenchModule} (h : (members.map Prod.fst).Nodup) {before : String}
    (hb : before = "" ∨ ∃ lines, before = lines ++ "\n") (code : Int) (errors : String) :
    readFindings (.finished code (before ++ (selfCheckReport members).write ++ "\n") errors) =
      .ok ((benchesOf members).map fun b => (b.1, (SelfCheck.ofMember b.2).finding)) := by
  have hr : Readable (selfCheckReport members) :=
    .record (List.nodup_singleton _) fun f hf => by
      rw [List.mem_singleton.mp hf]
      exact readable_fields (nodup_benchesOf h) SelfCheck.readable_ofMember
  have hpart : partFields "semcheck" (selfCheckReport members) =
      .ok ((benchesOf members).map fun b => (b.1, (SelfCheck.ofMember b.2).toJson)) := partFields_eq rfl
  have hlast : lastRecord (before ++ (selfCheckReport members).write ++ "\n") = .ok (selfCheckReport members) :=
    lastRecord_write hr hb
  simp only [readFindings, ToolRun.output, bind, Except.bind, hlast, hpart, pure, Except.pure, List.filterMap_map]
  refine congrArg Except.ok (List.filterMap_eq_map_iff_forall_eq_some.mpr fun b _ => ?_)
  exact congrArg (fun f => some (b.1, f)) (SelfCheck.ofJson_toJson _)

/-! ## Verdicts -/

theorem sameJson_text (s t : String) : sameJson (.text s) (.text t) = (s == t) := by
  rw [sameJson]

theorem allSame_texts {l : List String} :
    allSame (l.map .text) = true ↔ ∃ s rest, l = s :: rest ∧ ∀ t ∈ rest, s = t := by
  cases l with
  | nil => simp [allSame]
  | cons s rest => simp [allSame, sameJson_text]

theorem exists_ne {l : List String} (h : allSame (l.map .text) = false) (hl : l ≠ []) : ∃ s ∈ l, ∃ t ∈ l, s ≠ t := by
  obtain ⟨s, rest, rfl⟩ := List.exists_cons_of_ne_nil hl
  by_contra hall
  have hsame : ∀ t ∈ rest, s = t := fun t ht => by
    by_contra hne
    exact hall ⟨s, by simp, t, by simp [ht], hne⟩
  rw [allSame_texts.mpr ⟨s, rest, rfl, hsame⟩] at h
  cases h

/-- A verdict other than the first that is asked for. -/
theorem passed_over {c : Prop} [Decidable c] {v w x : Verdict} (h : (if c then v else w) = x) (hne : v ≠ x) :
    ¬c ∧ w = x := by
  by_cases hc : c
  · exact absurd ((if_pos hc).symm.trans h) hne
  · exact ⟨hc, (if_neg hc).symm.trans h⟩

theorem verdict_fine {f : Finding} {changed : Bool} (h : f.verdict changed = .fine) :
    changed = false ∧ allSame f.stable = true ∧ ((f.stable.take 1).any fun v => f.params.any (sameJson v)) = false ∧
      2 ≤ f.byParams.length ∧ allSame f.byParams = false := by
  unfold Finding.verdict at h
  dsimp only at h
  obtain ⟨hchanged, h⟩ := passed_over h (by decide)
  obtain ⟨-, h⟩ := passed_over h (by decide)
  obtain ⟨-, h⟩ := passed_over h (by decide)
  obtain ⟨hstable, h⟩ := passed_over h (by decide)
  obtain ⟨hinput, h⟩ := passed_over h (by decide)
  obtain ⟨-, h⟩ := passed_over h (by decide)
  obtain ⟨-, h⟩ := passed_over h (by decide)
  obtain ⟨hfew, h⟩ := passed_over h (by decide)
  obtain ⟨hsame, -⟩ := passed_over h (by decide)
  rw [Bool.not_eq_true] at hchanged hinput hsame
  rw [Bool.not_eq_true, Bool.not_eq_false'] at hstable
  exact ⟨hchanged, hstable, hinput, Nat.le_of_not_lt hfew, hsame⟩

/-- A bench that fails in one of its runs is judged so. -/
theorem verdict_failed {m : Member} {e : Raised} (h : SelfCheck.run m = .error e) (changed : Bool) :
    (SelfCheck.ofMember m).finding.verdict changed = if changed then .projectChanged else .error := by
  have hm : SelfCheck.ofMember m = SelfCheck.failed e := by rw [SelfCheck.ofMember, h]
  have hne : e.bracketed ≠ "" := by simp [Raised.bracketed]
  have hr : (SelfCheck.failed e).finding.result = some e.bracketed := by
    simp [SelfCheck.finding, SelfCheck.failed, hne]
  have hs : e.bracketed.startsWith "<" = true := by
    rw [String.startsWith_string_iff, Raised.bracketed, String.append_assoc, String.toList_append]
    exact List.prefix_append _ _
  rw [hm]
  cases changed with
  | true => rfl
  | false => simp [Finding.verdict, hr, hs]

/-- A bench that is judged fine came twice to one result, which is none of its parameters, and to different results for
some of these. -/
theorem fine_of_verdict {m : Member} {changed : Bool} (h : (SelfCheck.ofMember m).finding.verdict changed = .fine) :
    changed = false ∧ ∃ v w, (m.call [] 0).1 = .ok v ∧ (m.call [] (m.call [] 0).2).1 = .ok w ∧
      v.fingerprint = w.fingerprint ∧
      (∀ given ∈ m.params, ∀ p ∈ given, v.fingerprint ≠ (Sample.ofJson p.2).fingerprint) ∧
      ∃ given ∈ m.params, ∃ other ∈ m.params, ∃ i j x y, (m.call given i).1 = .ok x ∧ (m.call other j).1 = .ok y ∧
        x.fingerprint ≠ y.fingerprint := by
  cases hrun : SelfCheck.run m with
  | error e =>
    rw [verdict_failed hrun] at h
    cases changed <;> cases h
  | ok c =>
    have hm : SelfCheck.ofMember m = c := by rw [SelfCheck.ofMember, hrun]
    rw [hm] at h
    -- What the verdict asks of fingerprints is turned into a statement about the runs that they come from.
    obtain ⟨hchanged, hstable, hinput, hlen, hsame⟩ := verdict_fine h
    obtain ⟨hran, v, w, hv, hw, hs⟩ := SelfCheck.run_ok hrun
    have hvw : v.fingerprint = w.fingerprint := by
      obtain ⟨s, rest, hl, hall⟩ := allSame_texts.mp hstable
      rw [hs, List.cons.injEq] at hl
      obtain ⟨rfl, rfl⟩ := hl
      exact hall _ (by simp)
    have hparams : ∀ t ∈ c.params, v.fingerprint ≠ t := by
      have hf : c.finding.stable = [.text v.fingerprint, .text w.fingerprint] := congrArg (List.map Json.text) hs
      rw [hf] at hinput
      simpa [SelfCheck.finding, sameJson_text] using hinput
    have hby : c.finding.byParams = (c.byParams.map Prod.snd).map .text := (List.map_map ..).symm
    have hne : c.byParams.map Prod.snd ≠ [] := by
      intro hn
      rw [hby, hn] at hlen
      exact absurd hlen (by decide)
    obtain ⟨s, hsmem, t, htmem, hst⟩ := exists_ne (hby ▸ hsame) hne
    obtain ⟨p, hp, rfl⟩ := List.mem_map.mp hsmem
    obtain ⟨q, hq, rfl⟩ := List.mem_map.mp htmem
    obtain ⟨given, hgiven, i, x, hx, hpx⟩ := hran.ran p hp
    obtain ⟨other, hother, j, y, hy, hqy⟩ := hran.ran q hq
    refine ⟨hchanged, v, w, hv, hw, hvw, fun given hgiven p hp => ?_, given, hgiven, other, hother, i, j, x, y, hx, hy,
      ?_⟩
    · refine hparams _ ?_
      rw [hran.params]
      exact List.mem_flatMap.mpr ⟨given, hgiven, List.mem_map_of_mem hp⟩
    · rw [← hpx, ← hqy]
      exact hst

/-! ## Times -/

namespace Timing

theorem hotOf_hotJson (t : Timing) : hotOf t.hotJson = t.hot := by
  rw [hotOf, hotJson, items, List.filterMap_map]
  exact (List.filterMap_eq_map_iff_forall_eq_some.mpr fun _ _ => rfl).trans (List.map_id _)

theorem readable_hotJson (t : Timing) : Readable t.hotJson :=
  readable_items _ fun p => .list (by simpa using ⟨.real p.1, .text p.2⟩)

end Timing

theorem timingReport_eq (members : BenchModule) :
    timingReport members = .record [
      ("repo_time_pct", .record ((benchesOf members).map fun b => (b.1, .real (Timing.ofMember b.2).percent))),
      ("hot_ext", .record ((benchesOf members).map fun b => (b.1, (Timing.ofMember b.2).hotJson)))] := by
  rw [timingReport]
  simp only [List.map_map]
  rfl

theorem readable_timingReport {members : BenchModule} (h : (members.map Prod.fst).Nodup) :
    Readable (timingReport members) := by
  have hn := nodup_benchesOf h
  rw [timingReport_eq]
  refine .record (by simp) ?_
  simp only [List.forall_mem_cons, List.not_mem_nil, false_implies, implies_true, and_true]
  exact ⟨readable_fields hn (f := fun m => .real (Timing.ofMember m).percent) fun _ => .real _,
    readable_fields hn fun m => (Timing.ofMember m).readable_hotJson⟩

/-- The times of the benches are read from what the tool prints. -/
theorem readTimings_report {members : BenchModule} (h : (members.map Prod.fst).Nodup) {before : String}
    (hb : before = "" ∨ ∃ lines, before = lines ++ "\n") (code : Int) (errors : String) :
    readTimings (.finished code (before ++ (timingReport members).write ++ "\n") errors) =
      .ok ((benchesOf members).map fun b => ⟨b.1, (Timing.ofMember b.2).percent, (Timing.ofMember b.2).hot⟩) := by
  have hlast : lastRecord (before ++ (timingReport members).write ++ "\n") = .ok (timingReport members) :=
    lastRecord_write (readable_timingReport h) hb
  have hpart : partFields "repo_time_pct" (timingReport members) =
      .ok ((benchesOf members).map fun b => (b.1, .real (Timing.ofMember b.2).percent)) := by
    rw [timingReport_eq]
    exact partFields_eq rfl
  have hhot {b : String × Member} (hm : b ∈ benchesOf members) :
      hotOf (((optional "hot_ext" (timingReport members)).field? b.1).getD .null) = (Timing.ofMember b.2).hot := by
    have hn : (((benchesOf members).map fun b => (b.1, (Timing.ofMember b.2).hotJson)).map Prod.fst).Nodup := by
      rw [List.map_map]
      exact nodup_benchesOf h
    have hfield : (timingReport members).field? "hot_ext" =
        some (.record ((benchesOf members).map fun b => (b.1, (Timing.ofMember b.2).hotJson))) := by
      rw [timingReport_eq]
      rfl
    have hmem := List.mem_map_of_mem (f := fun b => (b.1, (Timing.ofMember b.2).hotJson)) hm
    rw [optional_record hfield (List.ne_nil_of_mem hmem), field?, lookup_of_mem hn hmem]
    exact Timing.hotOf_hotJson _
  simp only [readTimings, ToolRun.output, bind, Except.bind, hlast, hpart]
  rw [mapM_eq_ok, List.forall₂_map_left_iff, List.forall₂_map_right_iff, List.forall₂_same]
  intro b hm
  rw [← hhot hm]
  rfl

/-! ## Coverage -/

theorem sublist_filterMap {α β : Type} {f : String × α → Option (String × β)} (h : ∀ a, ∀ b ∈ f a, b.1 = a.1)
    (l : List (String × α)) : ((l.filterMap f).map Prod.fst).Sublist (l.map Prod.fst) := by
  induction l with
  | nil => exact .slnil
  | cons a l ih =>
    rw [List.filterMap_cons]
    split
    case h_1 => exact ih.cons _
    case h_2 b hb =>
      rw [List.map_cons, h a b hb]
      exact ih.cons_cons _

theorem optional_congr {name : String} {v w : Json} (h : v.field? name = w.field? name) :
    optional name v = optional name w := by
  rw [optional, optional, h]

/-- The head of a report says which benches failed, and how many there are. -/
theorem head_annotate (report : Json) (errors : List (String × Json)) (count : Nat) :
    ∃ head, (annotate report errors count).field? "meta" = some (.record head) ∧
      head.lookup "_pti_bench_errors" = some (.record errors) ∧ head.lookup "_pti_n_benches" = some (.whole count) :=
  ⟨_, lookup_put _ _ _, (lookup_put_ne (by decide) _ _).trans (lookup_put _ _ _), lookup_put _ _ _⟩

/-- A report keeps what it says, and gets the errors of the benches. -/
theorem ofJson_annotate (report : Json) (errors : List (String × Json)) (count : Nat) :
    Cover.ofJson (annotate report errors count) = { Cover.ofJson report with errors } := by
  have hother {name : String} (h : name ≠ "meta") :
      optional name (annotate report errors count) = optional name report :=
    optional_congr ((lookup_put_ne h _ _).trans (lookup_fields report name))
  have herrors : (optional "_pti_bench_errors" (optional "meta" (annotate report errors count))).fields = errors := by
    obtain ⟨head, hmeta, hhead, -⟩ := head_annotate report errors count
    have hne : head ≠ [] := by
      rintro rfl
      cases hhead
    rw [optional_record hmeta hne]
    exact optional_fields hhead
  rw [Cover.ofJson, Cover.ofJson, hother (by decide), hother (by decide), herrors]

theorem readable_annotate {report : Json} (hr : Readable report) {errors : List (String × Json)}
    (he : Readable (.record errors)) {count : Nat} (hc : count < 10 ^ digitLimit) :
    Readable (annotate report errors count) := by
  have hhead : Readable (.record (((report.field? "meta").map Json.fields).getD [])) := by
    cases h : report.field? "meta" with
    | none => exact readable_empty
    | some v => exact (hr.field h).fields
  exact hr.fields.put ((hhead.put he _).put (readable_count hc) _) _

theorem readable_benchErrors {members : Except Raised BenchModule}
    (h : ∀ ms, members = .ok ms → (ms.map Prod.fst).Nodup) : Readable (.record (benchErrors members).1) := by
  cases members with
  | error e =>
    refine .record (List.nodup_singleton _) fun f hf => ?_
    rw [List.mem_singleton.mp hf]
    exact .text _
  | ok members =>
    refine .record ((nodup_benchesOf (h members rfl)).sublist (sublist_filterMap ?_ _)) ?_
    · intro b f hf
      dsimp only at hf
      split at hf <;> cases hf
      rfl
    · intro f hf
      obtain ⟨b, -, hb⟩ := List.mem_filterMap.mp hf
      dsimp only at hb
      split at hb <;> cases hb
      exact .text _

/-- The errors of a module are those of the benches that fail. -/
theorem mem_benchErrors {members : BenchModule} {name : String} {v : Json} :
    (name, v) ∈ (benchErrors (.ok members)).1 ↔
      ∃ m e, (name, m) ∈ benchesOf members ∧ (m.call [] 0).1 = .error e ∧ v = .text e.line := by
  rw [benchErrors, List.mem_filterMap]
  constructor
  · rintro ⟨⟨name', m⟩, hb, hf⟩
    dsimp only at hf
    split at hf
    case h_1 => cases hf
    case h_2 e he =>
      cases hf
      exact ⟨m, e, hb, he, rfl⟩
  · rintro ⟨m, e, hb, he, rfl⟩
    exact ⟨(name, m), hb, by simp only [he]⟩

/-- A round with a report that can be read. -/
theorem round_of_read {scene : Scene} {output errors report : String} {fields : List (String × Json)}
    (hs : scene.coverage = .finished 0 output errors) (hw : scene.report = some report)
    (hr : Json.read report = .ok (.record fields)) :
    round scene = roundWith scene errors (Cover.ofJson (.record fields)) := by
  have hcode : ((0 : Int) == 0) = true := rfl
  rw [round, hs, hw]
  simp only [hcode, hr]

/-- A round gets to know of a coverage run what the report says and which benches failed. -/
theorem round_of_coverage {q : CoverageRequest} {omitted : Json} (hq : Json.read q.omitted = .ok omitted)
    {members : Except Raised BenchModule} (hm : ∀ ms, members = .ok ms → (ms.map Prod.fst).Nodup)
    (hc : (benchErrors members).2 < 10 ^ digitLimit) {report : Json} (hr : Readable report)
    {scene : Scene} {output errors : String} (hs : scene.coverage = .finished 0 output errors)
    (hw : scene.report = (coverageRun q members report).written) :
    round scene = roundWith scene errors { Cover.ofJson report with errors := (benchErrors members).1 } := by
  have hwritten : (coverageRun q members report).written =
      some (annotate report (benchErrors members).1 (benchErrors members).2).write := by
    rw [coverageRun, hq]
    dsimp only
    split <;> rfl
  have hread := read_write (readable_annotate hr (readable_benchErrors hm) hc)
  have hcover := ofJson_annotate report (benchErrors members).1 (benchErrors members).2
  obtain ⟨fields, hfields⟩ :
      ∃ fields, annotate report (benchErrors members).1 (benchErrors members).2 = .record fields := ⟨_, rfl⟩
  rw [hfields] at hwritten hread hcover
  rw [round_of_read hs (hw.trans hwritten) hread, hcover]

end Pseudocode.Measure
