import Mathlib
import Pseudocode.Proofs.JoinedProgram
import Pseudocode.Proofs.Lockstep

/-!
# Programs one after the other

A statement that neither jumps nor ends the program knows nothing of what is behind it or was printed before
(`lockstep_abreast`), and so the statements of two programs, done as one program, come to the same variables and the
same output as the one program and then the other.

A session that is given source texts shows the result of each of them, though. A `print` without a value prints an
empty line and has it as its result as well. As the last statement of a text it shows; with more statements behind, it
does not: `process_lines` says that this is the only difference.
-/

namespace Pseudocode

namespace Tree

mutual

/-- None of the statements is a jump or ends the program. -/
def straight : Tree → Bool
  | jump _ | give _ => false
  | list items => allStraight items
  | when _ body => straight body
  | choose _ body other => straight body && straight other
  | _ => true

def allStraight : List Tree → Bool
  | [] => true
  | t :: rest => straight t && allStraight rest

end

theorem allStraight_iff {ts : List Tree} : allStraight ts ↔ ∀ t ∈ ts, straight t := by
  induction ts with
  | nil => simp [allStraight]
  | cons t rest ih => simp [allStraight, ih]

theorem straight_inherited : Inherited fun t => straight t where
  items := allStraight_iff.1
  body h := h
  chosen h := (Bool.and_eq_true_iff.1 h).1
  other h := (Bool.and_eq_true_iff.1 h).2

theorem plain_inherited : Inherited fun t => onlyStatements t ∧ straight t where
  items h t ht := ⟨onlyStatements_inherited.items h.1 t ht, straight_inherited.items h.2 t ht⟩
  body h := h
  chosen h := ⟨onlyStatements_inherited.chosen h.1, straight_inherited.chosen h.2⟩
  other h := ⟨onlyStatements_inherited.other h.1, straight_inherited.other h.2⟩

theorem Items.ne_nil {items : List Tree} (h : Items items) : items ≠ [] := by
  rintro rfl
  cases h

theorem straight_kind {t : Tree} (h : t.straight) : t.kind ≠ .jump ∧ t.kind ≠ .give := by
  cases t <;> simp_all [straight, kind]

mutual

theorem Statement.onlyStatements : ∀ {s : Tree}, Statement s → s.onlyStatements
  | _, .assign .. | _, .give _ | _, .print _ | _, .printEmpty | _, .jump _ | _, .mark _ => rfl
  | _, .when _ hb => hb.onlyStatements
  | _, .choose _ hb ho => Bool.and_eq_true_iff.2 ⟨hb.onlyStatements, ho.onlyStatements⟩

theorem Body.onlyStatements : ∀ {b : Tree}, Body b → b.onlyStatements
  | _, .one h => h.onlyStatements
  | _, .many _ h => allStatements_iff.2 fun s hs => (h s hs).onlyStatements

end

/-- Whether a statement has a text as its result: an empty `print` always has one, and any other one does where
printed values are handed back. -/
def handsBack (handBack : Bool) : Tree → Bool
  | print none => true
  | print _ => handBack
  | _ => false

end Tree

namespace Machine

open Pseudocode.Tree

/-! ## With more statements behind -/

/-- The second machine has more statements behind those of the first one, and has printed more before. -/
structure Abreast (before : String) (rest : List Tree) (m m' : Machine) : Prop where
  queue : m'.queue = m.queue ++ rest
  store : m'.store = m.store
  output : m'.output = before ++ m.output

section

variable {before : String} {rest : List Tree} {m m' m₁ : Machine} {env env' : Setting}

theorem Abreast.note (h : Abreast before rest m m') (v : Tree) :
    Agree (fun a b => Abreast before rest a b ∧ b.result = a.result) (m.note (.value v)) (m'.note (.value v)) := by
  obtain ⟨captured, hn⟩ := note_value v m
  obtain ⟨captured', hn'⟩ := note_value v m'
  rw [hn, hn']
  exact .ok ⟨⟨h.queue, h.store, h.output⟩, rfl⟩

theorem Abreast.print (h : Abreast before rest m m') (s : String) :
    Abreast before rest { m with output := m.output ++ s } { m' with output := m'.output ++ s } := by
  refine ⟨h.queue, h.store, ?_⟩
  show m'.output ++ s = before ++ (m.output ++ s)
  rw [h.output, String.append_assoc]

theorem Abreast.queueFirst (h : Abreast before rest m m') (t : Tree) :
    Abreast before rest (m.queueFirst t) (m'.queueFirst t) := by
  rw [queueFirst_eq, queueFirst_eq]
  refine ⟨?_, h.store, h.output⟩
  show t.statements ++ m'.queue = t.statements ++ m.queue ++ rest
  rw [h.queue, List.append_assoc]

theorem lockstep_abreast (he : env'.handBack = env.handBack) (before : String) (rest : List Tree) :
    Lockstep env env' (Abreast before rest) fun _ a b => Abreast before rest a b ∧ b.result = a.result where
  store h := h.store
  set σ h := ⟨h.queue, rfl, h.output⟩
  queueFirst t h := h.queueFirst t
  note v _ h := h.note v
  line h := (h.print "\n").note (.text "\n")
  say s _ h := by
    unfold say
    rw [he]
    cases env.handBack with
    | true => exact h.note (.text (s ++ "\n"))
    | false => exact ((h.print s).print "\n").note .none

/-- What the parts of statements take over from the whole, and no jump has, all statements in the queue have along
the way. -/
theorem Goes.inherit_straight {I : Tree → Prop} (hI : Inherited I) (hj : ∀ l, ¬I (.jump l)) (h₀ : I (.list []))
    {home : Tree} {q q' : List Tree} (hg : Goes home q q') (hq : ∀ t ∈ q, I t) : ∀ t ∈ q', I t := by
  cases hg with
  | passes hp => exact Goes.inherit hI h₀ (.passes hp) hq
  | jumps rest => exact absurd (hq _ List.mem_cons_self) (hj _)
  | stops => simp

theorem step_abreast (he : env'.handBack = env.handBack) (h : Abreast before rest m m')
    (hq : ∀ t ∈ m.queue, t.straight) (hs : m.step env = .running m₁) :
    ∃ m₁', m'.step env' = .running m₁' ∧ Abreast before rest m₁ m₁' ∧ m₁'.result = m₁.result := by
  obtain ⟨s, more, hm, heff⟩ := effect_of_step hs
  obtain ⟨hj, hg⟩ := straight_kind (hq s (by simp [hm]))
  have hl : Abreast before rest { m with queue := more } { m' with queue := more ++ rest } := ⟨rfl, h.store, h.output⟩
  have ha := effect_lockstep (lockstep_abreast he before rest) hl hj hg
  rw [heff] at ha
  generalize heff' : effect env' { m' with queue := more ++ rest } s = x at ha
  cases ha with
  | @ok _ m₁' h₁ => exact ⟨m₁', step_of_effect (by rw [h.queue, hm]; rfl) heff', h₁⟩

/-- A run to the end goes the same way with more statements behind, up to them. -/
theorem run_abreast (he : env'.handBack = env.handBack) {n : Nat} (h : Abreast before rest m m')
    (hn : m.queue ≠ []) (hq : ∀ t ∈ m.queue, t.straight) (hr : m.run env n = (m₁, .finished)) :
    ∃ k ≤ n, ∃ m₁', (∀ j, m'.run env' (k + j) = m₁'.run env' j) ∧ m₁.queue = [] ∧ Abreast before rest m₁ m₁' ∧
      m₁'.result = m₁.result := by
  induction n generalizing m m' with
  | zero =>
    obtain ⟨k, -, hk, -⟩ := run_to_end hn hr
    cases hk
  | succ n ih =>
    obtain ⟨k, m₂, hk, hs, hc⟩ := run_to_end hn hr
    cases hk
    obtain ⟨m₂', hs', h₂, hres⟩ := step_abreast he h hq hs
    -- With its queue empty the first machine is at its end, and the second one is at what stands behind.
    rcases hc with ⟨hn₂, rfl⟩ | ⟨hn₂, hr₂⟩
    · exact ⟨1, by omega, m₂', run_of_step hs', hn₂, h₂, hres⟩
    · have hq₂ := (goes_of_step hs).inherit_straight straight_inherited (by simp [straight]) rfl hq
      obtain ⟨k, hk, m₁', hrun, hm₁⟩ := ih h₂ hn₂ hq₂ hr₂
      refine ⟨1 + k, by omega, m₁', fun j => ?_, hm₁⟩
      rw [Nat.add_assoc, run_of_step hs', hrun]

/-! ## The last result -/

theorem note_result {r : Result} (h : m.note r = .ok m₁) : m₁.result = r := by
  cases r with
  | returned v =>
    obtain ⟨s, -, h⟩ := bind_eq_ok h
    cases h
    rfl
  | value t =>
    obtain ⟨captured, hn⟩ := note_value t m
    cases hn.symm.trans h
    rfl

/-- What a statement without an expression at its place results in: a text, or nothing. -/
theorem perform_result {t : Tree} {r : Result} (ho : t.onlyStatements) (ht : t.straight)
    (h : m.perform env t = .ok (r, m₁)) :
    if t.handsBack env.handBack then ∃ s, r = .value (.text s) else r = nothing := by
  cases t with
  | give | jump => cases ht
  | assign x e =>
    obtain ⟨v, -, h⟩ := bind_eq_ok h
    cases h
    rfl
  | when test body =>
    obtain ⟨b, -, h⟩ := bind_eq_ok h
    split at h <;> cases h <;> rfl
  | choose test body other =>
    obtain ⟨b, -, h⟩ := bind_eq_ok h
    repeat' split at h
    all_goals cases h; rfl
  | print e =>
    by_cases he : e = .none
    · subst he
      cases h
      exact ⟨_, rfl⟩
    · have hb : handsBack env.handBack (.print e) = env.handBack := by
        cases e <;> first | rfl | exact absurd rfl he
      rw [perform_print env m he] at h
      obtain ⟨v, -, h⟩ := bind_eq_ok h
      obtain ⟨s, -, h⟩ := bind_eq_ok h
      rw [hb]
      cases hh : env.handBack <;> rw [hh] at h <;> cases h
      · rfl
      · exact ⟨_, rfl⟩
  | mark | none | list => cases h; rfl
  | _ => cases ho

theorem step_result (hq : ∀ t ∈ m.queue, t.onlyStatements ∧ t.straight) (hs : m.step env = .running m₁) :
    ∃ t, m.queue.take 1 = [t] ∧
      if t.handsBack env.handBack then ∃ s, m₁.result = .value (.text s) else m₁.result = nothing := by
  obtain ⟨t, rest, hm, he⟩ := effect_of_step hs
  obtain ⟨⟨r, m₂⟩, hp, hn⟩ := bind_eq_ok he
  have ht : t ∈ m.queue := by simp [hm]
  refine ⟨t, by simp [hm], ?_⟩
  rw [note_result hn]
  exact perform_result (hq t ht).1 (hq t ht).2 hp

/-- A run to the end results in what its last statement does. -/
theorem run_result {n : Nat} (hn : m.queue ≠ []) (hq : ∀ t ∈ m.queue, t.onlyStatements ∧ t.straight)
    (hr : m.run env n = (m₁, .finished)) :
    ∃ t, (m.performed env n).getLast? = some t ∧
      if t.handsBack env.handBack then ∃ s, m₁.result = .value (.text s) else m₁.result = nothing := by
  induction n generalizing m with
  | zero =>
    obtain ⟨k, -, hk, -⟩ := run_to_end hn hr
    cases hk
  | succ n ih =>
    obtain ⟨k, m₂, hk, hs, hc⟩ := run_to_end hn hr
    cases hk
    obtain ⟨t, ht, hres⟩ := step_result hq hs
    rw [performed, hs, ht]
    rcases hc with ⟨hn₂, rfl⟩ | ⟨hn₂, hr₂⟩
    · exact ⟨t, by simp [performed_of_queue hn₂], hres⟩
    · have hq₂ := (goes_of_step hs).inherit_straight plain_inherited (by simp [straight]) ⟨rfl, rfl⟩ hq
      obtain ⟨u, hu, hres⟩ := ih hn₂ hq₂ hr₂
      exact ⟨u, by rw [List.getLast?_append, hu]; rfl, hres⟩

end

end Machine

namespace Session

open Machine

/-- What it means that all went well with a source text. -/
theorem process_eq_true {n : Nat} {source : String} {program : List Tree} (h : readProgram source = .ok program)
    {s s' : Session} {out : String} :
    s.process n source = (s', out, true) ↔ ∃ m line,
      (load (.list program) s.store).run (s.settingOf false (.list program)) n = (m, .finished) ∧
      resultLine m.result = .ok line ∧ out = m.output ++ line ∧
      s' = ⟨m.store, remember s.context (.list program), s.history ++ program, s.handBack⟩ := by
  generalize hr : (load (.list program) s.store).run (s.settingOf false (.list program)) n = x
  obtain ⟨m, ending⟩ := x
  unfold process
  rw [h]
  dsimp only [carryOut]
  rw [evaluate_eq n false (.list program) s hr]
  cases ending with
  | failed f => simp [outcomeOf]
  | unfinished => simp [outcomeOf]
  | finished =>
    cases hl : resultLine m.result with
    | error f => simp [outcomeOf, resultOf, hl]
    | ok line => simp [outcomeOf, resultOf, hl, eq_comm, and_comm]

theorem resultLine_text (s : String) : ∃ line, resultLine (.value (.text s)) = .ok line ∧ line ≠ "" :=
  ⟨s ++ "\n", rfl, by simp⟩

theorem handBack_settingOf (s : Session) (program : Tree) : (s.settingOf false program).handBack = s.handBack :=
  Bool.or_false _

/-- Two programs done as one come to what the second one comes to behind the first one. -/
theorem run_joined {σ : Store} {p q : List Tree} (hpn : p ≠ []) (hqn : q ≠ []) (hp : ∀ t ∈ p, t.straight)
    (hq : ∀ t ∈ q, t.straight) {env₁ env₂ : Setting} {m₁ m₂ : Machine} {n₁ n₂ n : Nat} (hn : n₁ + n₂ ≤ n)
    (h₁ : (load (.list p) σ).run env₁ n₁ = (m₁, .finished))
    (h₂ : (load (.list q) m₁.store).run env₂ n₂ = (m₂, .finished)) (env : Setting)
    (he₁ : env.handBack = env₁.handBack) (he₂ : env.handBack = env₂.handBack) :
    ∃ m, (load (.list (p ++ q)) σ).run env n = (m, .finished) ∧ m.store = m₂.store ∧
      m.output = m₁.output ++ m₂.output ∧ m.result = m₂.result := by
  have ha : Abreast "" q (load (.list p) σ) (load (.list (p ++ q)) σ) := ⟨rfl, rfl, rfl⟩
  obtain ⟨k₁, hk₁, m', hrun₁, hm₁, ha₁, -⟩ := run_abreast he₁ ha hpn hp h₁
  have hb : Abreast m₁.output [] (load (.list q) m₁.store) m' := by
    refine ⟨?_, ha₁.store, ?_⟩
    · rw [ha₁.queue, hm₁, List.nil_append, List.append_nil]
      rfl
    · rw [ha₁.output, String.empty_append]
      exact String.append_empty.symm
  obtain ⟨k₂, hk₂, m, hrun₂, hm₂, ha₂, hr₂⟩ := run_abreast he₂ hb hqn hq h₂
  obtain ⟨j, rfl⟩ := Nat.exists_eq_add_of_le (Nat.le_trans (Nat.add_le_add hk₁ hk₂) hn)
  refine ⟨m, ?_, ha₂.store, ha₂.output, hr₂⟩
  rw [Nat.add_assoc, hrun₁, hrun₂]
  exact run_of_queue (by rw [ha₂.queue, hm₂, List.nil_append]) j

/-- A session that is given two texts of statements, without jumps and returns, one after the other has the same
variables and the same history then as one that is given both as one text. It shows the result of the first text on
top of what both print, and so it writes the same only if the last statement that this text does hands nothing
back. -/
theorem process_lines (a b : String) (p q : List Tree) (ha : readProgram a = .ok p) (hb : readProgram b = .ok q)
    (hp : ∀ t ∈ p, t.isStatement ∧ t.straight) (hq : ∀ t ∈ q, t.isStatement ∧ t.straight) (s s₁ s₂ : Session)
    (n₁ n₂ : Nat) (out₁ out₂ : String) (h₁ : s.process n₁ a = (s₁, out₁, true))
    (h₂ : s₁.process n₂ b = (s₂, out₂, true)) (n : Nat) (hn : n₁ + n₂ ≤ n) :
    ∃ s₃ out, s.process n (a ++ "\n" ++ b) = (s₃, out, true) ∧ s₃.store = s₂.store ∧ s₃.history = s₂.history ∧
      (∃ printed line, out₁ = printed ++ line ∧ out = printed ++ out₂) ∧
      (out = out₁ ++ out₂ ↔ ∀ t ∈ ((load (.list p) s.store).performed (s.settingOf false (.list p)) n₁).getLast?,
        t.handsBack s.handBack = false) := by
  have hj := (readProgram_ok_iff_spells.1 ha).joined (readProgram_ok_iff_spells.1 hb) (fun t ht => (hp t ht).1)
    fun t ht => (hq t ht).1
  have hab : readProgram (a ++ "\n" ++ b) = .ok (p ++ q) := by
    rw [readProgram_ok_iff_spells, toList_lines]
    exact hj
  obtain ⟨m₁, line₁, hr₁, hl₁, rfl, rfl⟩ := (process_eq_true ha).1 h₁
  obtain ⟨m₂, line₂, hr₂, hl₂, rfl, rfl⟩ := (process_eq_true hb).1 h₂
  have hpn : p ≠ [] := (readProgram_items ha).ne_nil
  obtain ⟨m, hr, hst, hout, hres⟩ := run_joined hpn (readProgram_items hb).ne_nil (fun t ht => (hp t ht).2)
    (fun t ht => (hq t ht).2) hn hr₁ hr₂ (s.settingOf false (.list (p ++ q))) rfl rfl
  refine ⟨_, _, (process_eq_true hab).2 ⟨m, line₂, hr, by rw [hres, hl₂], rfl, rfl⟩, hst,
    (List.append_assoc ..).symm, ⟨m₁.output, line₁, rfl, by rw [hout, String.append_assoc]⟩, ?_⟩
  -- Both write the same if the first text has no result to show.
  have hline : m.output ++ line₂ = m₁.output ++ line₁ ++ (m₂.output ++ line₂) ↔ line₁ = "" := by
    rw [hout, String.append_assoc, String.append_assoc, String.append_right_inj, eq_comm, String.append_eq_right_iff]
  rw [hline]
  have hs : ∀ t ∈ p, t.onlyStatements ∧ t.straight := fun t ht =>
    ⟨((readProgram_shaped ha t ht).statement_of (hp t ht).1).onlyStatements, (hp t ht).2⟩
  obtain ⟨t, ht, hb⟩ := run_result hpn hs hr₁
  rw [handBack_settingOf] at hb
  simp only [ht, Option.mem_some_iff, forall_eq']
  cases hh : t.handsBack s.handBack with
  | false =>
    rw [hh, if_neg Bool.false_ne_true] at hb
    rw [hb] at hl₁
    cases hl₁
    simp
  | true =>
    rw [hh, if_pos rfl] at hb
    obtain ⟨text, hb⟩ := hb
    obtain ⟨line, hl, hne⟩ := resultLine_text text
    rw [hb] at hl₁
    cases hl.symm.trans hl₁
    simp [hne]

/-- A program that does a `print` last which is not its last statement, and one that ends with a `print`. -/
def choosing : List Tree :=
  [.assign "a" (.bool true),
    .choose (.comparison "==" [.name "a", .bool true]) (.print (.name "a")) (.print .none)]

def closing : List Tree :=
  [.assign "b" (.name "a"), .print .none]

theorem process_lines_choosing :
    readProgram "let a be True\nif a == True, then\n  print a\nelse\n  print" = .ok choosing ∧
      readProgram "let b be a\nprint" = .ok closing ∧
      ∃ s, fresh.process 5
          ("let a be True\nif a == True, then\n  print a\nelse\n  print" ++ "\n" ++ "let b be a\nprint") =
            (s, "True\n" ++ "\n\n\n", true) ∧
        s.store = ⟨[("a", .bool true), ("b", .bool true)]⟩ ∧ s.history = choosing ++ closing := by
  have ha : readProgram "let a be True\nif a == True, then\n  print a\nelse\n  print" = .ok choosing := by cbv
  have hb : readProgram "let b be a\nprint" = .ok closing := by cbv
  have h₁ : fresh.process 3 "let a be True\nif a == True, then\n  print a\nelse\n  print" =
      (⟨⟨[("a", .bool true)]⟩, [.list choosing], choosing, false⟩, "True\n", true) :=
    (process_eq_true ha).2 ⟨⟨[], ⟨[("a", .bool true)]⟩, "True\n", "", nothing⟩, "", by cbv, rfl, rfl, rfl⟩
  have h₂ := (process_eq_true (n := 2) (s := ⟨⟨[("a", .bool true)]⟩, [.list choosing], choosing, false⟩) hb).2
    ⟨⟨[], ⟨[("a", .bool true), ("b", .bool true)]⟩, "\n", "\n", .value (.text "\n")⟩, "\n\n", by cbv, by cbv, rfl, rfl⟩
  obtain ⟨s, out, h, hs, hh, -, ho⟩ :=
    process_lines _ _ _ _ ha hb (by decide) (by decide) fresh _ _ 3 2 _ _ h₁ h₂ 5 (Nat.le_refl 5)
  have hl : ((load (.list choosing) fresh.store).performed (fresh.settingOf false (.list choosing)) 3).getLast? =
      some (.print (.name "a")) := by cbv
  have ho : out = "True\n" ++ "\n\n\n" := ho.2 (by rw [hl]; rintro t ⟨⟩; rfl)
  exact ⟨ha, hb, s, by rw [h, ho], hs, hh⟩

/-- An empty `print` shows once more where a text ends. -/
theorem process_print_alone :
    (fresh.process 1 "print").2.1 ++ ((fresh.process 1 "print").1.process 1 "let x be 1").2.1 = "\n\n\n" ∧
      (fresh.process 2 ("print" ++ "\n" ++ "let x be 1")).2.1 = "\n" := by
  constructor <;> cbv

end Session

end Pseudocode
