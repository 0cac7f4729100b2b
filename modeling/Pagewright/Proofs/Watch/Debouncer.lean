import Mathlib.Data.Finset.Basic
import Mathlib.Data.List.Induction
import Pagewright.Proofs.Path.Order
import Pagewright.Watch.Debouncer

/-!
# Debouncing loses no path and repeats none

A debouncer goes through steps: changes are added, time passes, batches are handed over. Its history
keeps the batches (`Debouncer.History`). The steps between two batches are a round, and what a round
adds is collected once per meaning (`Debouncer.Collects`): handed over in order when the round ends
with a batch (`Debouncer.IsBatch`), pending when it has not ended yet. `Debouncer.accounts_run`
carries this through every run, one step at a time.

Time only counts while something is pending. Then the last change is in the current round, and the
debouncer knows how long ago it was (`Debouncer.sinceChange_run`).
-/

namespace Pagewright

namespace Path

/-- What the paths of a list mean. -/
def meant (paths : List Path) : Finset (List Component) :=
  (paths.map components).toFinset

@[simp]
theorem mem_meant {paths : List Path} {c : List Component} :
    c ∈ meant paths ↔ ∃ path ∈ paths, path.components = c := by
  simp [meant]

@[simp]
theorem meant_append (first second : List Path) :
    meant (first ++ second) = meant first ∪ meant second := by
  ext c
  simp only [mem_meant, Finset.mem_union, List.mem_append, or_and_right, exists_or]

end Path

namespace Debouncer

open Pagewright.Path (meant)

/-! ## Collecting paths -/

/-- The list holds one path for each meaning that the paths have, in a spelling that is among
them. -/
structure Collects (pending paths : List Path) : Prop where
  distinct : pending.Pairwise fun a b => a.same b = false
  subset : pending ⊆ paths
  meant_eq : meant pending = meant paths

theorem collects_nil : Collects [] [] :=
  ⟨List.Pairwise.nil, List.Subset.refl _, rfl⟩

/-- One more path is collected, unless it is there already. -/
theorem Collects.insert {pending paths : List Path} (h : Collects pending paths) (path : Path) :
    Collects (insert pending path) (paths ++ [path]) := by
  unfold Debouncer.insert
  split
  case isTrue hany =>
    obtain ⟨other, hmem, hsame⟩ := List.any_eq_true.1 hany
    refine ⟨h.distinct, List.Subset.trans h.subset (List.subset_append_left _ _), ?_⟩
    have hthere : path.components ∈ meant paths :=
      h.meant_eq ▸ Path.mem_meant.2 ⟨other, hmem, (Path.same_iff.1 hsame).symm⟩
    have hone : meant [path] = {path.components} := rfl
    rw [h.meant_eq, Path.meant_append, hone, Finset.union_eq_left.2]
    exact Finset.singleton_subset_iff.2 hthere
  case isFalse hany =>
    refine ⟨List.pairwise_append.2 ⟨h.distinct, List.pairwise_singleton _ _, ?_⟩,
      List.append_subset.2 ⟨List.Subset.trans h.subset (List.subset_append_left _ _), by simp⟩, ?_⟩
    · intro a ha b hb
      obtain rfl := List.mem_singleton.1 hb
      rw [← Bool.not_eq_true, Path.same_iff]
      exact fun heq => hany (List.any_eq_true.2 ⟨a, ha, Path.same_iff.2 heq.symm⟩)
    · rw [Path.meant_append, Path.meant_append, h.meant_eq]

theorem Collects.foldl_insert {pending paths : List Path} (h : Collects pending paths)
    (more : List Path) : Collects (more.foldl Debouncer.insert pending) (paths ++ more) := by
  induction more generalizing pending paths with
  | nil => simpa using h
  | cons path more ih => simpa using ih (h.insert path)

/-- The list is a batch of the paths: in strict order, and the same as they by meaning. -/
structure IsBatch (batch paths : List Path) : Prop where
  sorted : batch.Pairwise fun a b => a.precedes b = true ∧ a.same b = false
  subset : batch ⊆ paths
  meant_eq : meant batch = meant paths

/-- What is handed over is a batch of the collected paths. -/
theorem Collects.isBatch_take {d : Debouncer} {paths : List Path} (h : Collects d.pending paths) :
    IsBatch d.take.1 paths where
  sorted := Path.pairwise_precedes_mergeSort h.distinct
  subset := fun _ hmem => h.subset (d.perm_take.subset hmem)
  meant_eq := by
    rw [← h.meant_eq]
    ext c
    simp only [Path.mem_meant, d.perm_take.mem_iff]

/-! ## Histories -/

/-- What can happen to a debouncer. -/
inductive Step where
  | add (paths : List Path)
  | pass (time : Nat)
  | take
  | markBuild
  deriving DecidableEq

namespace Step

/-- The paths that a step adds, without the temporary ones. -/
def paths : Step → List Path
  | add paths => paths.filter fun path => !path.isTemporary
  | _ => []

/-- The time that a step takes. -/
def time : Step → Nat
  | pass time => time
  | _ => 0

end Step

/-- The paths that some steps add, without the temporary ones. -/
def added (steps : List Step) : List Path :=
  steps.flatMap Step.paths

/-- The time that some steps take. -/
def elapsed : List Step → Nat
  | [] => 0
  | step :: steps => step.time + elapsed steps

/-- A debouncer and the batches that it has handed over, the oldest first. -/
structure History where
  debouncer : Debouncer := {}
  batches : List (List Path) := []

namespace History

/-- One step. -/
def step (history : History) : Step → History
  | .add paths => { history with debouncer := history.debouncer.add paths }
  | .pass time => { history with debouncer := history.debouncer.pass time }
  | .take => ⟨history.debouncer.take.2, history.batches ++ [history.debouncer.take.1]⟩
  | .markBuild => { history with debouncer := history.debouncer.markBuild }

/-- One step after another. -/
def run (history : History) (steps : List Step) : History :=
  steps.foldl step history

@[simp]
theorem run_cons (history : History) (step : Step) (steps : List Step) :
    history.run (step :: steps) = (history.step step).run steps :=
  rfl

theorem run_append (history : History) (first second : List Step) :
    history.run (first ++ second) = (history.run first).run second :=
  List.foldl_append

/-- Only a batch takes paths away, so any other step adds its own to those that are pending. -/
theorem pending_step {step : Step} (h : step ≠ .take) (history : History) :
    (history.step step).debouncer.pending = step.paths.foldl insert history.debouncer.pending := by
  cases step with
  | take => exact absurd rfl h
  | _ => rfl

/-- Only taking hands over a batch. -/
theorem batches_step {step : Step} (h : step ≠ .take) (history : History) :
    (history.step step).batches = history.batches := by
  cases step with
  | take => exact absurd rfl h
  | _ => rfl

end History

/-! ## Rounds -/

/-- Among the elements with a property there is a last one. -/
theorem exists_last {α : Type} {p : α → Prop} {xs : List α} (h : ∃ x ∈ xs, p x) :
    ∃ before x after, xs = before ++ x :: after ∧ p x ∧ ∀ y ∈ after, ¬p y := by
  induction xs with
  | nil =>
    obtain ⟨x, hx, -⟩ := h
    cases hx
  | cons a xs ih =>
    by_cases hlater : ∃ x ∈ xs, p x
    · obtain ⟨before, x, after, rfl, hx, hafter⟩ := ih hlater
      exact ⟨a :: before, x, after, rfl, hx, hafter⟩
    · obtain ⟨x, hx, hp⟩ := h
      rcases List.mem_cons.1 hx with rfl | hx
      · exact ⟨[], x, xs, rfl, hp, fun y hy hpy => hlater ⟨y, hy, hpy⟩⟩
      · exact absurd ⟨x, hx, hp⟩ hlater

/-- A step that is no batch belongs to the round that has not ended. -/
theorem splitOn_concat {step : Step} (h : step ≠ .take) {steps current : List Step}
    {rounds : List (List Step)} (hsteps : steps.splitOn .take = rounds ++ [current]) :
    (steps ++ [step]).splitOn .take = rounds ++ [current ++ [step]] := by
  by_cases htake : Step.take ∈ steps
  · obtain ⟨before, x, after, rfl, rfl, hafter⟩ := exists_last ⟨_, htake, rfl⟩
    have hcurrent : Step.take ∉ after := fun hmem => hafter _ hmem rfl
    rw [List.splitOn_append_cons_self, List.splitOn_eq_singleton hcurrent] at hsteps
    obtain ⟨rfl, hlast⟩ := List.append_inj' hsteps rfl
    obtain rfl := List.singleton_inj.1 hlast
    have hmore : Step.take ∉ after ++ [step] := by simp [hcurrent, h.symm]
    rw [List.append_assoc, List.cons_append, List.splitOn_append_cons_self,
      List.splitOn_eq_singleton hmore]
  · rw [List.splitOn_eq_singleton htake, ← List.nil_append [steps]] at hsteps
    obtain ⟨rfl, hlast⟩ := List.append_inj' hsteps rfl
    obtain rfl := List.singleton_inj.1 hlast
    rw [List.splitOn_eq_singleton (by simp [htake, h.symm]), List.nil_append]

/-- The history of some rounds that ended with a batch, and of one that has not ended: every path
that was added is where it belongs. -/
structure Accounts (rounds : List (List Step)) (current : List Step) (history : History) :
    Prop where
  batches : List.Forall₂ (fun batch round => IsBatch batch (added round)) history.batches rounds
  pending : Collects history.debouncer.pending (added current)

/-- Within a round the batches stay and more is collected. -/
theorem Accounts.step {rounds : List (List Step)} {current : List Step} {history : History}
    (h : Accounts rounds current history) {step : Step} (hstep : step ≠ .take) :
    Accounts rounds (current ++ [step]) (history.step step) where
  batches := by
    rw [History.batches_step hstep]
    exact h.batches
  pending := by
    have hadded : added (current ++ [step]) = added current ++ step.paths := by simp [added]
    rw [History.pending_step hstep, hadded]
    exact h.pending.foldl_insert _

/-- Taking ends a round with its batch. -/
theorem Accounts.take {rounds : List (List Step)} {current : List Step} {history : History}
    (h : Accounts rounds current history) :
    Accounts (rounds ++ [current]) [] (history.step .take) where
  batches := List.rel_append h.batches (.cons h.pending.isBatch_take .nil)
  pending := collects_nil

/-- Every history is cut into rounds, one for each batch, and the one that goes on. -/
theorem accounts_run (steps : List Step) :
    ∃ rounds current, steps.splitOn .take = rounds ++ [current] ∧
      Accounts rounds current (History.run {} steps) := by
  induction steps using List.reverseRecOn with
  | nil => exact ⟨[], [], rfl, ⟨.nil, collects_nil⟩⟩
  | append_singleton steps step ih =>
    obtain ⟨rounds, current, hsteps, h⟩ := ih
    rw [History.run_append]
    by_cases hstep : step = .take
    · subst hstep
      refine ⟨rounds ++ [current], [], ?_, h.take⟩
      rw [List.splitOn_append_cons_self, hsteps, List.splitOn_nil]
    · exact ⟨rounds, current ++ [step], splitOn_concat hstep hsteps, h.step hstep⟩

/-! ## Time -/

/-- Nothing becomes pending where nothing is added, whatever else happens. -/
theorem pending_run_of_added {steps : List Step} (h : added steps = []) {history : History}
    (hpending : history.debouncer.pending = []) :
    (history.run steps).debouncer.pending = [] := by
  induction steps generalizing history with
  | nil => exact hpending
  | cons step steps ih =>
    obtain ⟨hstep, hsteps⟩ := List.append_eq_nil_iff.1 h
    refine ih hsteps ?_
    by_cases htake : step = .take
    · rw [htake]
      rfl
    · rw [History.pending_step htake, hstep, hpending]
      rfl

/-- Where nothing changes and no batch is handed over, time passes. -/
theorem sinceChange_run_of_quiet {steps : List Step} (hadd : ∀ paths, Step.add paths ∉ steps)
    (htake : Step.take ∉ steps) (history : History) :
    (history.run steps).debouncer.sinceChange =
      history.debouncer.sinceChange.map (· + elapsed steps) := by
  induction steps generalizing history with
  | nil => simp [History.run, elapsed]
  | cons step steps ih =>
    have hstep : (history.step step).debouncer.sinceChange =
        history.debouncer.sinceChange.map (· + step.time) := by
      cases step with
      | add paths => exact absurd List.mem_cons_self (hadd paths)
      | take => exact absurd List.mem_cons_self htake
      | pass time => rfl
      | markBuild => simp [History.step, markBuild, Step.time]
    have hrest := ih (fun paths hmem => hadd paths (List.mem_cons_of_mem _ hmem))
      (fun hmem => htake (List.mem_cons_of_mem _ hmem)) (history.step step)
    rw [History.run_cons, hrest, hstep, Option.map_map]
    congr 1
    funext time
    simp only [Function.comp_apply, elapsed]
    omega

/-- While something is pending the debouncer knows the time since the last change. -/
theorem sinceChange_run {before after : List Step} {paths : List Path}
    (hadd : ∀ paths, Step.add paths ∉ after)
    (hpending : (History.run {} (before ++ .add paths :: after)).debouncer.pending ≠ []) :
    (History.run {} (before ++ .add paths :: after)).debouncer.sinceChange =
      some (elapsed after) := by
  have htake : Step.take ∉ after := by
    intro hmem
    obtain ⟨first, second, rfl⟩ := List.append_of_mem hmem
    refine hpending ?_
    have hsecond : added second = [] := by
      refine List.flatMap_eq_nil_iff.2 fun step hstep => ?_
      cases step with
      | add paths => exact absurd (by simp [hstep]) (hadd paths)
      | _ => rfl
    rw [← List.cons_append, ← List.append_assoc, History.run_append]
    exact pending_run_of_added hsecond rfl
  rw [History.run_append, History.run_cons, sinceChange_run_of_quiet hadd htake]
  simp [History.step, add]

/-- A batch can be taken when paths are pending and the last change is long enough ago. -/
theorem ready_iff {d : Debouncer} :
    d.ready = true ↔ d.pending ≠ [] ∧ ∃ time, d.sinceChange = some time ∧ quietTime ≤ time := by
  simp [ready, Option.any_eq_true]

/-- In a history the last change is the last adding of paths, and the time since then counts. -/
theorem ready_run_iff (steps : List Step) :
    (History.run {} steps).debouncer.ready = true ↔
      (History.run {} steps).debouncer.pending ≠ [] ∧
        ∃ before paths after, steps = before ++ .add paths :: after ∧
          (∀ paths, Step.add paths ∉ after) ∧ quietTime ≤ elapsed after := by
  rw [ready_iff]
  refine and_congr_right fun hpending => ?_
  constructor
  · rintro ⟨time, hsince, hquiet⟩
    -- Something is pending, so something was added, and we take the last such step.
    have hadded : ∃ step ∈ steps, step.paths ≠ [] := by
      by_contra hnone
      push Not at hnone
      exact hpending (pending_run_of_added (List.flatMap_eq_nil_iff.2 hnone) rfl)
    have hadd : ∃ step ∈ steps, ∃ paths, step = .add paths := by
      obtain ⟨step, hmem, hpaths⟩ := hadded
      cases step with
      | add paths => exact ⟨_, hmem, paths, rfl⟩
      | _ => exact absurd rfl hpaths
    obtain ⟨before, step, after, rfl, ⟨paths, rfl⟩, hafter⟩ := exists_last hadd
    have hquieter : ∀ paths, Step.add paths ∉ after := fun paths hmem => hafter _ hmem ⟨paths, rfl⟩
    rw [sinceChange_run hquieter hpending] at hsince
    exact ⟨before, paths, after, rfl, hquieter, Option.some.inj hsince ▸ hquiet⟩
  · rintro ⟨before, paths, after, rfl, hadd, hquiet⟩
    exact ⟨_, sinceChange_run hadd hpending, hquiet⟩

/-! ## The whole run -/

/-- The rounds add what the steps add. -/
theorem flatMap_added_splitOn (steps : List Step) :
    (steps.splitOn .take).flatMap added = added steps := by
  induction steps with
  | nil => rfl
  | cons step steps ih =>
    rw [List.splitOn_cons_eq_if_modifyHead]
    split
    case isTrue htake =>
      obtain rfl := eq_of_beq htake
      exact ih
    case isFalse =>
      obtain ⟨round, rounds, hsplit⟩ :=
        List.exists_cons_of_ne_nil (List.splitOn_ne_nil .take steps)
      rw [hsplit] at ih ⊢
      rw [List.modifyHead_cons, List.flatMap_cons]
      calc step.paths ++ added round ++ rounds.flatMap added
          = step.paths ++ (round :: rounds).flatMap added := List.append_assoc ..
        _ = step.paths ++ added steps := by rw [ih]

/-- Batches mean together what has been added in their rounds. -/
theorem meant_flatten_batches {batches : List (List Path)} {rounds : List (List Step)}
    (h : List.Forall₂ (fun batch round => IsBatch batch (added round)) batches rounds) :
    meant batches.flatten = meant (rounds.flatMap added) := by
  induction h with
  | nil => rfl
  | cons hbatch _ ih =>
    rw [List.flatten_cons, List.flatMap_cons, Path.meant_append, Path.meant_append,
      hbatch.meant_eq, ih]

/-- At every point of every run, no path is lost and none is there twice. What is pending and what
has been handed over is by its meaning what was added, without the temporary paths. The batches are
those of the rounds that a batch has ended, and what is pending belongs to the round that none has
ended. A batch can be handed over when something is pending and the last change is long enough ago,
so not between a batch and the next path that counts. -/
theorem run_conserves (steps : List Step) :
    let history := History.run {} steps
    meant history.debouncer.pending ∪ meant history.batches.flatten = meant (added steps) ∧
      (∃ rounds current, steps.splitOn .take = rounds ++ [current] ∧
        List.Forall₂ (fun batch round => IsBatch batch (added round)) history.batches rounds ∧
        Collects history.debouncer.pending (added current)) ∧
      (history.debouncer.ready = true ↔ history.debouncer.pending ≠ [] ∧
        ∃ before paths after, steps = before ++ .add paths :: after ∧
          (∀ paths, Step.add paths ∉ after) ∧ 300 ≤ elapsed after) ∧
      ∀ before after, steps = before ++ .take :: after → added after = [] →
        history.debouncer.ready = false := by
  obtain ⟨rounds, current, hsteps, haccounts⟩ := accounts_run steps
  refine ⟨?_, ⟨rounds, current, hsteps, haccounts.batches, haccounts.pending⟩,
    ready_run_iff steps, ?_⟩
  · have hadded := flatMap_added_splitOn steps
    rw [hsteps, List.flatMap_append, List.flatMap_singleton] at hadded
    rw [meant_flatten_batches haccounts.batches, haccounts.pending.meant_eq, ← hadded,
      Path.meant_append, Finset.union_comm]
  · rintro before after rfl hadded
    rw [← Bool.not_eq_true, ready_iff]
    rintro ⟨hpending, -⟩
    rw [History.run_append, History.run_cons] at hpending
    exact hpending (pending_run_of_added hadded rfl)

/-- Two spellings of one path are one change. It can be handed over after a while, and then a backup
that changes makes no batch. -/
theorem run_conserves_spellings :
    (History.run {} [.add [⟨"b//c"⟩, ⟨"a~"⟩, ⟨"b/c"⟩], .pass 300]).debouncer.ready = true ∧
      (History.run {} [.add [⟨"b//c"⟩, ⟨"a~"⟩, ⟨"b/c"⟩], .pass 300, .take, .add [⟨"a~"⟩],
        .pass 400]).debouncer.ready = false := by
  constructor
  · have hpending : (History.run {} [.add [⟨"b//c"⟩, ⟨"a~"⟩, ⟨"b/c"⟩], .pass 300]).debouncer.pending
        ≠ [] := by decide +kernel
    exact (run_conserves _).2.2.1.2 ⟨hpending, [], _, [.pass 300], rfl, by simp, by decide⟩
  · exact (run_conserves _).2.2.2 [.add [⟨"b//c"⟩, ⟨"a~"⟩, ⟨"b/c"⟩], .pass 300]
      [.add [⟨"a~"⟩], .pass 400] rfl (by decide +kernel)

end Debouncer

end Pagewright
