import Mathlib
import Pseudocode.Measure.Plateau

/-!
# When rounds are of no more use

A plateau keeps the lowest count of the rounds so far and a number that starts anew with every lower one. The rounds
fall into those before the first one with the lowest count, which are all above it, that one, and as many behind it as
the number says, none of them below it (`Plateau.Describes`). One more round keeps this (`Describes.next`), so it holds
after all of them. Where a count is lower than all before it is then only a matter of where the first lowest one stands
(`Describes.stalled_iff`), and `announcement_of_rounds` says for which rounds the end is announced.
-/

namespace Pseudocode.Measure

/-! ## The lowest count -/

namespace Plateau

/-- Rounds whose lowest count comes first `since` rounds before the last one. -/
def Describes (p : Plateau) (rounds : List Int) : Prop :=
  ∃ early late, rounds = early ++ p.best :: late ∧ (∀ c ∈ early, p.best < c) ∧ (∀ c ∈ late, p.best ≤ c) ∧
    late.length = p.since

theorem Describes.first (count : Int) : Describes ⟨count, 0⟩ [count] :=
  ⟨[], [], rfl, by simp, by simp, rfl⟩

theorem Describes.next {p : Plateau} {rounds : List Int} (h : p.Describes rounds) (count : Int) :
    (p.next count).Describes (rounds ++ [count]) := by
  obtain ⟨early, late, rfl, he, hl, hs⟩ := h
  by_cases hc : count < p.best
  · -- A lower count takes the place of the lowest one, and all rounds so far are above it.
    rw [Plateau.next, if_pos hc]
    refine ⟨early ++ p.best :: late, [], rfl, ?_, by simp, rfl⟩
    intro c hm
    rcases List.mem_append.1 hm with hm | hm
    · exact hc.trans (he c hm)
    · rcases List.mem_cons.1 hm with rfl | hm
      · exact hc
      · exact hc.trans_le (hl c hm)
  · rw [Plateau.next, if_neg hc]
    refine ⟨early, late ++ [count], by simp, he, ?_, by simp [hs]⟩
    intro c hm
    rcases List.mem_append.1 hm with hm | hm
    · exact hl c hm
    · rw [List.mem_singleton.1 hm]
      exact not_lt.1 hc

theorem Describes.foldl {p : Plateau} {rounds : List Int} (h : p.Describes rounds) (more : List Int) :
    (more.foldl Plateau.next p).Describes (rounds ++ more) := by
  induction more generalizing p rounds with
  | nil => simpa using h
  | cons count more ih => simpa using ih (h.next count)

theorem describes_after (before : List Int) (now : Int) : (after before now).Describes (before ++ [now]) := by
  cases before with
  | nil => exact .first now
  | cons count before => exact (Describes.first count).foldl (before ++ [now])

section

variable {p : Plateau} {rounds : List Int}

theorem Describes.min? (h : p.Describes rounds) : rounds.min? = some p.best := by
  obtain ⟨early, late, rfl, he, hl, -⟩ := h
  rw [List.min?_eq_some_iff]
  refine ⟨by simp, fun c hm => ?_⟩
  rcases List.mem_append.1 hm with hm | hm
  · exact (he c hm).le
  · rcases List.mem_cons.1 hm with rfl | hm
    · exact le_rfl
    · exact hl c hm

theorem Describes.since_eq (h : p.Describes rounds) : p.since = rounds.length - 1 - rounds.idxOf p.best := by
  obtain ⟨early, late, rfl, he, -, hs⟩ := h
  have hn : p.best ∉ early := fun hm => lt_irrefl _ (he _ hm)
  rw [List.idxOf_append_of_notMem hn, List.idxOf_cons_self, List.length_append, List.length_cons]
  omega

end

end Plateau

/-! ## Rounds without a lower count -/

/-- The count of a round is lower than all counts before it. -/
def NewLow (rounds : List Int) (i : Nat) : Prop :=
  ∀ c ∈ rounds[i]?, ∀ b ∈ rounds.take i, c < b

instance (rounds : List Int) (i : Nat) : Decidable (NewLow rounds i) :=
  inferInstanceAs (Decidable (∀ c ∈ rounds[i]?, ∀ b ∈ rounds.take i, c < b))

/-- There are at least four rounds, and the last three have brought no lower count. -/
def Stalled (rounds : List Int) : Prop :=
  4 ≤ rounds.length ∧ ∀ i < rounds.length, rounds.length - 3 ≤ i → ¬NewLow rounds i

instance (rounds : List Int) : Decidable (Stalled rounds) :=
  inferInstanceAs (Decidable (4 ≤ rounds.length ∧ ∀ i < rounds.length, rounds.length - 3 ≤ i → ¬NewLow rounds i))

namespace Plateau

variable {p : Plateau} {rounds : List Int}

/-- No round behind the first lowest one is a new low. -/
theorem Describes.not_newLow (h : p.Describes rounds) {i : Nat} (hi : i < rounds.length)
    (hs : rounds.length - p.since ≤ i) : ¬NewLow rounds i := by
  obtain ⟨early, late, rfl, -, hl, hlate⟩ := h
  intro hn
  obtain ⟨k, rfl⟩ : ∃ k, i = early.length + (k + 1) := by
    refine ⟨i - early.length - 1, ?_⟩
    simp only [List.length_append, List.length_cons] at hs
    omega
  have hk : k < late.length := by
    simp only [List.length_append, List.length_cons] at hi
    omega
  have hc : (early ++ p.best :: late)[early.length + (k + 1)]? = some late[k] := by
    simp [hk]
  have hb : p.best ∈ (early ++ p.best :: late).take (early.length + (k + 1)) := by
    simp [List.take_append]
  exact absurd (hn _ hc _ hb) (not_lt.2 (hl _ (List.getElem_mem hk)))

/-- The first round with the lowest count is a new low. -/
theorem Describes.newLow (h : p.Describes rounds) : NewLow rounds (rounds.length - 1 - p.since) := by
  obtain ⟨early, late, rfl, he, -, hs⟩ := h
  have hi : (early ++ p.best :: late).length - 1 - p.since = early.length := by
    simp only [List.length_append, List.length_cons]
    omega
  rw [hi]
  intro c hc b hb
  simp only [List.getElem?_append_right le_rfl, Nat.sub_self, List.getElem?_cons_zero, Option.mem_def,
    Option.some.injEq] at hc
  rw [List.take_left] at hb
  exact hc ▸ he b hb

theorem Describes.since_lt (h : p.Describes rounds) : p.since < rounds.length := by
  obtain ⟨early, late, rfl, -, -, hs⟩ := h
  simp only [List.length_append, List.length_cons]
  omega

theorem Describes.stalled_iff (h : p.Describes rounds) : Stalled rounds ↔ patience ≤ p.since := by
  have hlt := h.since_lt
  unfold patience
  constructor
  · rintro ⟨h4, hn⟩
    by_contra hs
    exact hn _ (by omega) (by omega) h.newLow
  · intro hs
    exact ⟨by omega, fun i hi hl => h.not_newLow hi (by omega)⟩

end Plateau

/-! ## What is announced -/

/-- Whether the rounds are to end is a question of the last three of them, if enough is covered and a bench is slow. -/
theorem stop?_of_slow {covered : Float} {n : Nat} (hc : coverageGoal ≤ covered) (hn : n ≠ 0) (before : List Int) :
    stop? covered before (some n) =
      if Stalled (before ++ [(n : Int)]) then some (.stuck (Plateau.after before n).best (Plateau.after before n).since)
      else none := by
  have hs := (Plateau.describes_after before n).stalled_iff
  simp only [stop?, if_pos hc, if_neg hn, hs]

theorem announced_stuck (best : Int) (rounds : Nat) :
    "\n>>> STOP: repo_time converged (" ++ (Stop.stuck best rounds).reason ++
        "). Finalize microbench.py now. <<<\n" =
      "\n>>> STOP: repo_time converged (no improvement in " ++ toString rounds ++ " rounds; best " ++
        toString best ++ " below). Finalize microbench.py now. <<<\n" := by
  have hreason : (Stop.stuck best rounds).reason =
      "no improvement in " ++ toString rounds ++ " rounds; best " ++ toString best ++ " below" := rfl
  rw [hreason]
  -- The numerals are opaque from here on, so that only the fixed texts are evaluated.
  generalize toString rounds = r, toString best = b
  have hopen : "\n>>> STOP: repo_time converged (" ++ "no improvement in " =
      "\n>>> STOP: repo_time converged (no improvement in " := by decide
  have hclose : " below" ++ "). Finalize microbench.py now. <<<\n" =
      " below). Finalize microbench.py now. <<<\n" := by decide
  rw [← hopen, ← hclose]
  simp only [String.append_assoc]

theorem announcement_of_slow {covered : Float} {n : Nat} (hc : coverageGoal ≤ covered) (hn : n ≠ 0)
    (before : List Int) :
    announcement covered before (some n) =
      if Stalled (before ++ [(n : Int)]) then
        "\n>>> STOP: repo_time converged (" ++
          (Stop.stuck (Plateau.after before n).best (Plateau.after before n).since).reason ++
          "). Finalize microbench.py now. <<<\n"
      else "" := by
  unfold announcement
  rw [stop?_of_slow hc hn before]
  by_cases hs : Stalled (before ++ [(n : Int)])
  · simp only [if_pos hs]
  · simp only [if_neg hs]

/-- A plateau has the lowest of all counts, and the number of rounds behind the first one with it. So a round in which
enough is covered and some benches are slow announces the end exactly if it is at least the fourth and none of the last
three had a count lower than all before it. It tells then for how many rounds there was no lower count, and the lowest
one. -/
theorem announcement_of_rounds (before : List Int) (now : Int) :
    (before ++ [now]).min? = some (Plateau.after before now).best ∧
      (Plateau.after before now).since =
        (before ++ [now]).length - 1 - (before ++ [now]).idxOf (Plateau.after before now).best ∧
      ∀ (covered : Float) (n : Nat), coverageGoal ≤ covered → n ≠ 0 → now = n →
        announcement covered before (some n) =
          if Stalled (before ++ [now]) then
            "\n>>> STOP: repo_time converged (no improvement in " ++ toString (Plateau.after before now).since ++
              " rounds; best " ++ toString (Plateau.after before now).best ++
              " below). Finalize microbench.py now. <<<\n"
          else "" := by
  have h := Plateau.describes_after before now
  refine ⟨h.min?, h.since_eq, ?_⟩
  rintro covered n hc hn rfl
  rw [announcement_of_slow hc hn before, ← announced_stuck]

/-- The second of six rounds had the lowest count, and later rounds with the same count do not help. -/
theorem announcement_of_rounds_wavering :
    Stalled [3, 2, 4, 2, 3, 2] ∧ ¬Stalled [3, 3, 2, 4, 2] ∧
      announcement 75.0 [3, 2, 4, 2, 3] (some 2) =
        "\n>>> STOP: repo_time converged (no improvement in 4 rounds; best 2 below). Finalize microbench.py now. <<<\n" ∧
      announcement 75.0 [3, 3, 2, 4] (some 2) = "" := by
  have hc : coverageGoal ≤ 75.0 := by decide
  have hs : Stalled [3, 2, 4, 2, 3, 2] := by decide
  have hn : ¬Stalled [3, 3, 2, 4, 2] := by decide
  refine ⟨hs, hn, ?_, ?_⟩
  · rw [(announcement_of_rounds [3, 2, 4, 2, 3] 2).2.2 75.0 2 hc (by decide) rfl]
    exact (if_pos hs).trans rfl
  · rw [(announcement_of_rounds [3, 3, 2, 4] 2).2.2 75.0 2 hc (by decide) rfl]
    exact if_neg hn

end Pseudocode.Measure
