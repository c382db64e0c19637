import Mathlib.Data.List.Nodup
import Mathlib.Logic.Function.Basic
import ShadowImpl.Proofs.Mentions

/-!
# Directives and their histories

A program keeps several directives and changes them one by one, also by merging one into another or
into itself. Whatever it has done, each directive is the one that is told its history at once:
nothing else that happened on the way can be seen in it.
-/

namespace ShadowImpl.Directive

variable {ι : Type} [DecidableEq ι]

/-- What can be done to directives that are kept under names. -/
inductive Action (ι : Type) where
  /-- Starts over with lists of names and of predicates. -/
  | create (i : ι) (names : List String) (literals : List Predicate)
  | project (i : ι) (name : String)
  | addLiteral (i : ι) (p : Predicate)
  /-- Starts over with the arguments of a marker. -/
  | parse (i : ι) (s : Source)
  /-- Merges the directive under `j` into the one under `i`, which may be the same. -/
  | merge (i j : ι)

namespace Action

/-- The directives after an action. Arguments that cannot be read change nothing. -/
def run (ds : ι → Directive) : Action ι → ι → Directive
  | create i names literals => Function.update ds i (.of names literals)
  | project i name => Function.update ds i ((ds i).project name)
  | addLiteral i p => Function.update ds i ((ds i).addLiteral p)
  | parse i s =>
    match Directive.parse s with
    | .ok d => Function.update ds i d
    | .error _ => ds
  | merge i j => Function.update ds i ((ds i).merge (ds j))

/-- What the directives have received after an action. A merge contributes the names that are
projected by then, each of them once. -/
def record (log : ι → Mentions) : Action ι → ι → Mentions
  | create i names literals => Function.update log i ⟨names, literals⟩
  | project i name => Function.update log i (log i ++ { names := [name] })
  | addLiteral i p => Function.update log i (log i ++ { literals := [p] })
  | parse i s =>
    match s.mentions with
    | .ok m => Function.update log i m
    | .error _ => log
  | merge i j => Function.update log i (log i ++ ⟨(log j).names.eraseDups, (log j).literals⟩)

/-- The directives that a program ends with; at first they are empty. -/
def play (actions : List (Action ι)) : ι → Directive :=
  actions.foldl run fun _ => {}

/-- What each directive has received in the course of a program. -/
def history (actions : List (Action ι)) : ι → Mentions :=
  actions.foldl record fun _ => {}

/-- One action keeps up with the history. -/
theorem run_told (log : ι → Mentions) (action : Action ι) :
    action.run (told ∘ log) = told ∘ action.record log := by
  cases action with
  | create i names literals => exact (Function.comp_update told log i ⟨names, literals⟩).symm
  | project i name =>
    rw [run, record, Function.comp_update, Function.comp_apply, project_told]
  | addLiteral i p =>
    rw [run, record, Function.comp_update, Function.comp_apply, addLiteral_told]
  | parse i s =>
    rw [run, record, parse_eq]
    cases s.mentions with
    | error f => rfl
    | ok m => exact (Function.comp_update told log i m).symm
  | merge i j =>
    -- `j` hands over what it shows, and that is each name once.
    rw [run, record, Function.comp_update, Function.comp_apply, Function.comp_apply,
      merge_told_left, projected_told, literals_told]

theorem foldl_run_told (actions : List (Action ι)) (log : ι → Mentions) :
    actions.foldl run (told ∘ log) = told ∘ actions.foldl record log := by
  induction actions generalizing log with
  | nil => rfl
  | cons action actions ih => rw [List.foldl_cons, List.foldl_cons, run_told, ih]

theorem play_eq (actions : List (Action ι)) (i : ι) : play actions i = told (history actions i) :=
  congrFun (foldl_run_told actions fun _ => {}) i

/-! ## What a merge changes -/

theorem run_merge_self (ds : ι → Directive) (i j : ι) :
    (merge i j).run ds i = (ds i).merge (ds j) :=
  Function.update_self ..

/-- Only the directive that is merged into changes. -/
theorem run_merge_of_ne (ds : ι → Directive) {i k : ι} (h : k ≠ i) (j : ι) :
    (merge i j).run ds k = ds k :=
  Function.update_of_ne h ..

end Action

theorem merge_told_assoc (m n k : Mentions) :
    (told m).merge ((told n).merge (told k)) = ((told m).merge (told n)).merge (told k) := by
  simp only [merge_told, Mentions.append_assoc]

theorem merge_told_self (m : Mentions) :
    (told m).merge (told m) = ⟨(told m).projected, (told m).literals ++ (told m).literals⟩ := by
  rw [merge_told]
  ext1
  · -- every name of the second half has come before
    have hnone : m.names.removeAll m.names = [] := by simp [List.removeAll]
    rw [projected_told, projected_told, Mentions.names_append, List.eraseDups_append, hnone,
      List.eraseDups_nil, List.append_nil]
  · simp only [literals_told, Mentions.literals_append]

/-! ## Baselines -/

theorem baseline_injective : Function.Injective baseline := by
  intro a b h
  simpa [baseline, Ty.ofIdent, Path.ofIdent] using h

/-- A directive `d` that shows nothing but what it has received. -/
structure Shows (d : Directive) (m : Mentions) : Prop where
  /-- The names are in the order in which they came first. -/
  projected : d.projected = m.names.eraseDups
  nodup : d.projected.Nodup
  projects : ∀ name, d.projects name = true ↔ name ∈ d.projected
  literals : d.literals = m.literals
  additions : d.additions = d.projected.map baseline ++ d.literals
  /-- There is one baseline for each projected name and no other. -/
  baselines_nodup : d.baselines.Nodup
  baselines : ∀ name, baseline name ∈ d.baselines ↔ name ∈ d.projected

theorem shows_told (m : Mentions) : (told m).Shows m where
  projected := projected_told m
  nodup := by
    rw [projected_told]
    exact nodup_eraseDups m.names
  projects name := List.contains_iff_mem
  literals := literals_told m
  additions := rfl
  baselines_nodup := by
    rw [baselines, projected_told]
    exact (nodup_eraseDups m.names).map baseline_injective
  baselines name := List.mem_map_of_injective baseline_injective

namespace Action

/-- Whatever a program does to its directives, each shows what it has received: a name once and a
predicate as often as it came. Merging changes no other directive than the one that is merged into,
it doubles the predicates of a directive that is merged into itself, and it does not matter which of
three directives are merged first. -/
theorem play_history (actions : List (Action ι)) :
    let ds := play actions
    (∀ i, (ds i).Shows (history actions i)) ∧
    (∀ i, (merge i i).run ds i = ⟨(ds i).projected, (ds i).literals ++ (ds i).literals⟩) ∧
    (∀ i j k, k ≠ i → (merge i j).run ds k = ds k) ∧
    ∀ a b c, a ≠ b → a ≠ c →
      (merge a b).run ((merge b c).run ds) a = (merge a c).run ((merge a b).run ds) a := by
  intro ds
  have htold : ∀ i, ds i = told (history actions i) := play_eq actions
  refine ⟨fun i => ?_, fun i => ?_, fun i j k h => run_merge_of_ne ds h j, fun a b c hab hac => ?_⟩
  · rw [htold]
    exact shows_told _
  · rw [run_merge_self, htold, merge_told_self]
  · rw [run_merge_self, run_merge_of_ne ds hab, run_merge_self, run_merge_self, run_merge_self,
      run_merge_of_ne ds hac.symm, htold, htold, htold, merge_told_assoc]

/-- A directive with a repeated name is merged into one that is read from arguments, and that into
itself. -/
theorem play_history_merged :
    let ds := play (ι := Fin 3) [.create 0 ["U", "T", "U"] [],
      .parse 1 ⟨"<args>", "transform_bounds(T)", none⟩, .addLiteral 1 (baseline "S"),
      .merge 1 0, .merge 1 1]
    (ds 1).projected = ["T", "U"] ∧ (ds 1).literals = [baseline "S", baseline "S"] ∧
      (merge 1 2).run ds 2 = ds 2 ∧
      (merge 0 1).run ((merge 1 2).run ds) 0 = (merge 0 2).run ((merge 0 1).run ds) 0 := by
  intro ds
  obtain ⟨hshows, -, hframe, hassoc⟩ := play_history (ι := Fin 3) [.create 0 ["U", "T", "U"] [],
    .parse 1 ⟨"<args>", "transform_bounds(T)", none⟩, .addLiteral 1 (baseline "S"),
      .merge 1 0, .merge 1 1]
  refine ⟨(hshows 1).projected.trans ?_, (hshows 1).literals.trans ?_, hframe 1 2 2 (by decide),
    hassoc 0 1 2 (by decide) (by decide)⟩
  · decide +kernel
  · rfl

end Action
end ShadowImpl.Directive
