import Mathlib.Data.Multiset.AddSub
import ShadowImpl.Proofs.Scopes

/-!
# What generics state

Generics state constraints: some stand as bounds on a parameter, some in the where clause. Making
generics normal moves constraints from the one place to the other. It neither loses one nor states
one twice, and where there is nothing to move nothing changes.
-/

namespace ShadowImpl

/-! ## Constraints -/

/-- One bound on one subject, under the binder of the predicate that it stands in. -/
inductive Constraint where
  | type (binder : List Lifetime) (subject : Ty) (bound : Bound)
  | lifetime (subject : Lifetime) (bound : Lifetime)

/-- The constraints that a predicate states. -/
def Predicate.constraints : Predicate → List Constraint
  | type subject bounds binder => bounds.map (.type binder subject)
  | lifetime l bounds => bounds.map (.lifetime l)

namespace GenericParam

/-- The bounds of a parameter as constraints on it. -/
def constraints : GenericParam → List Constraint
  | type ident bounds _ => bounds.map (.type [] (.ofIdent ident))
  | lifetime l bounds => bounds.map (.lifetime l)
  | const _ _ _ => []

/-- A parameter without bounds of its own. -/
def Unbounded : GenericParam → Prop
  | type _ bounds _ => bounds = []
  | lifetime _ bounds => bounds = []
  | const _ _ _ => True

theorem unbounded_withoutBounds (p : GenericParam) : p.withoutBounds.Unbounded := by
  cases p <;> simp [withoutBounds, Unbounded]

theorem constraints_of_unbounded {p : GenericParam} (h : p.Unbounded) : p.constraints = [] := by
  cases p <;> simp_all [constraints, Unbounded]

/-- The predicate on a parameter states what its bounds do. -/
theorem constraints_stated (p : GenericParam) :
    p.stated.flatMap Predicate.constraints = p.constraints := by
  cases p with
  | type ident bounds default => cases bounds <;> simp [stated, constraints, Predicate.constraints]
  | lifetime l bounds => cases bounds <;> simp [stated, constraints, Predicate.constraints]
  | const ident ty default => rfl

/-- What the name of a parameter leaves out are its bounds and its default. -/
theorem printName_of_unbounded {p : GenericParam} (h : p.Unbounded) :
    p.printName = p.withoutDefault.print := by
  cases p with
  | type ident bounds default =>
    obtain rfl : bounds = [] := h
    simp [printName, withoutDefault, print]
  | lifetime l bounds =>
    obtain rfl : bounds = [] := h
    simp [printName, withoutDefault, print]
  | const ident ty default => simp [printName, withoutDefault, print]

end GenericParam

namespace Generics

/-- The constraints that generics state, as often as they state them. -/
def constraints (g : Generics) : Multiset Constraint :=
  ↑(g.params.flatMap GenericParam.constraints ++ g.predicates.flatMap Predicate.constraints)

/-- The generics without the defaults of the parameters. -/
def withoutDefaults (g : Generics) : Generics :=
  { g with params := g.params.map GenericParam.withoutDefault }

/-! ## Normal generics -/

theorem unbounded_normalize (g : Generics) : ∀ p ∈ g.normalize.params, p.Unbounded := by
  rw [params_normalize]
  intro p hp
  obtain ⟨q, -, rfl⟩ := List.mem_map.mp hp
  exact q.unbounded_withoutBounds

/-- Generics without bounds are normal, and there is nothing to move. -/
theorem normalize_of_unbounded {g : Generics} (h : ∀ p ∈ g.params, p.Unbounded) :
    g.normalize = g := by
  refine if_pos ?_
  have hnone : ∀ p ∈ g.params, p.inlinePredicate? = none := by
    intro p hp
    have hp := h p hp
    cases p <;> simp_all [GenericParam.inlinePredicate?, GenericParam.Unbounded]
  rw [isNormal, inlinePredicates, List.filterMap_eq_nil_iff.mpr hnone]
  rfl

theorem normalize_eq_self_iff (g : Generics) : g.normalize = g ↔ ∀ p ∈ g.params, p.Unbounded := by
  refine ⟨fun h => ?_, normalize_of_unbounded⟩
  rw [← h]
  exact g.unbounded_normalize

theorem constraints_normalize (g : Generics) : g.normalize.constraints = g.constraints := by
  have hparams : g.normalize.params.flatMap GenericParam.constraints = [] :=
    List.flatMap_eq_nil_iff.mpr fun p hp =>
      GenericParam.constraints_of_unbounded (g.unbounded_normalize p hp)
  -- Each parameter's bounds come back as the predicate behind the old ones.
  have hpredicates : g.normalize.predicates.flatMap Predicate.constraints =
      g.predicates.flatMap Predicate.constraints ++ g.params.flatMap GenericParam.constraints := by
    rw [predicates_normalize, List.flatMap_append, List.flatMap_assoc]
    congr 2
    exact funext GenericParam.constraints_stated
  rw [constraints, constraints, hparams, hpredicates, List.nil_append, Multiset.coe_eq_coe]
  exact List.perm_append_comm

theorem printNames_of_unbounded {g : Generics} (h : ∀ p ∈ g.params, p.Unbounded) :
    g.printNames = g.withoutDefaults.printParams := by
  rw [printNames, printParams, withoutDefaults, List.map_map]
  congr 1
  exact List.map_congr_left fun p hp => GenericParam.printName_of_unbounded (h p hp)

/-! ## Scopes that have been expanded -/

theorem unbounded_expand (g : Generics) (d : Directive) :
    ∀ p ∈ (g.expand d).params, p.Unbounded := by
  rw [params_expand]
  intro p hp
  obtain ⟨q, -, rfl⟩ := List.mem_map.mp hp
  exact q.unbounded_withoutBounds

/-- Adding nothing drops a where clause without predicates, and no scope that has been expanded has
one. -/
theorem augment_empty (g : Generics) (d : Directive) : (g.augment d).augment {} = g.augment d := by
  have hadditions : ({} : Directive).additions = [] := rfl
  rw [augment, predicates_augment, hadditions, List.append_nil, augment]

theorem expand_empty (g : Generics) (d : Directive) : (g.expand d).expand {} = g.expand d := by
  have hproject : (g.expand d).project {} = g.expand d := if_pos (by simp [keepsUnder])
  rw [expand, normalize_of_unbounded (g.unbounded_expand d), hproject]
  exact augment_empty _ d

/-- Making generics normal keeps the constraints that they state and leaves no bound on a parameter,
so that the names of the parameters say all but their defaults. What has been stated in the where
clause stays in front. It is done once: normal generics stay as they are, and so do the generics of
a scope that has been expanded under a directive that asks for nothing. -/
theorem normalize_preserves (g : Generics) :
    g.normalize.constraints = g.constraints ∧
    (∀ p ∈ g.normalize.params, p.Unbounded ∧ p.printName = p.withoutDefault.print) ∧
    g.normalize.printNames = g.normalize.withoutDefaults.printParams ∧
    g.predicates <+: g.normalize.predicates ∧
    g.normalize.normalize = g.normalize ∧
    (g.normalize = g ↔ ∀ p ∈ g.params, p.Unbounded) ∧
    ∀ d : Directive, (g.expand d).expand {} = g.expand d := by
  have hbounds := g.unbounded_normalize
  refine ⟨g.constraints_normalize, fun p hp => ⟨hbounds p hp, ?_⟩,
    printNames_of_unbounded hbounds, ?_, normalize_of_unbounded hbounds,
    g.normalize_eq_self_iff, g.expand_empty⟩
  · exact GenericParam.printName_of_unbounded (hbounds p hp)
  · rw [predicates_normalize]
    exact List.prefix_append _ _

/-- A parameter with a bound and a default, beside one that may not have bounds. -/
theorem normalize_preserves_default :
    let g : Generics := ⟨[.type "T" [.trait (.ofIdent "A") false []] (some (.ofIdent "U")),
      .const "N" (.ofIdent "usize") none], none⟩
    g.normalize.constraints = g.constraints ∧ GenericParam.type "T" [] (some (.ofIdent "U")) ∈
      g.normalize.params ∧ GenericParam.printName (.type "T" [] (some (.ofIdent "U"))) =
      GenericParam.print (.type "T" [] none) := by
  intro g
  have hmem : GenericParam.type "T" [] (some (.ofIdent "U")) ∈ g.normalize.params :=
    List.mem_cons_self
  obtain ⟨hconstraints, hparams, -⟩ := normalize_preserves g
  exact ⟨hconstraints, hmem, (hparams _ hmem).2⟩

end Generics
end ShadowImpl
