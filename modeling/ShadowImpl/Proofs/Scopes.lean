import ShadowImpl.Proofs.RootPositions
import ShadowImpl.Proofs.Stages

/-!
# The generics of a scope

Normalizing, projecting and augmenting each leave generics alone in cases of their own: nothing to
move, no where clause, nothing projected, nothing to add. Together they follow one equation in every
case, and the block and each of its methods follow it under their own directives.
-/

namespace ShadowImpl

/-! ## Projecting nothing -/

namespace Part

mutual

/-- Nothing changes if nothing is to be replaced. -/
theorem replace_eq_self {f : Address → Part → Option Part} (h : ∀ a part, f a part = none)
    (a : Address) (part : Part) : part.replace f a = part := by
  cases part with
  | node label children => rw [replace, h, replaceEach_eq_self h a children]

theorem replaceEach_eq_self {f : Address → Part → Option Part} (h : ∀ a part, f a part = none)
    (a : Address) (children : List Child) : replaceEach f a children = children := by
  match children with
  | [] => rw [replaceEach]
  | ⟨role, part⟩ :: children =>
    rw [replaceEach, replace_eq_self h (a ++ [role]) part, replaceEach_eq_self h a children]

end

end Part

/-- With no names to project nothing is replaced. -/
theorem Part.shadow?_nil (a : Address) (part : Part) : shadow? [] a part = none := by
  unfold shadow?
  split <;> simp

/-- Without a name to project, a predicate stays as it is. -/
@[simp] theorem Predicate.project_nil (p : Predicate) : p.project [] = p := by
  apply Predicate.view_inj
  rw [← Predicate.projectRoots_view, Part.projectRoots, Part.replace_eq_self Part.shadow?_nil]

@[simp] theorem projectSegments_nil (segments : List Segment) :
    projectSegments [] segments = segments := by
  apply viewSegments_inj
  rw [← replaceEach_viewSegments [] (a := []) rfl, Part.replaceEach_eq_self Part.shadow?_nil]

/-! ## The equation -/

namespace GenericParam

/-- The same parameter without bounds of its own. -/
inductive Cleared : GenericParam → GenericParam → Prop where
  | type (ident : String) (bounds : List Bound) (default : Option Ty) :
      Cleared (.type ident bounds default) (.type ident [] default)
  | lifetime (l : Lifetime) (bounds : List Lifetime) :
      Cleared (.lifetime l bounds) (.lifetime l [])
  | const (ident : String) (ty : Ty) (default : Option GenericArg) :
      Cleared (.const ident ty default) (.const ident ty default)

/-- What the bounds of a parameter say as a predicate on it; nothing without bounds. -/
def stated : GenericParam → List Predicate
  | type ident (bound :: bounds) _ => [.type (.ofIdent ident) (bound :: bounds) []]
  | lifetime l (bound :: bounds) => [.lifetime l (bound :: bounds)]
  | _ => []

/-- A parameter without its default. -/
def withoutDefault : GenericParam → GenericParam
  | type ident bounds _ => type ident bounds none
  | lifetime l bounds => lifetime l bounds
  | const ident ty _ => const ident ty none

/-- To take the bounds off a parameter leaves the rest of it. -/
theorem cleared_withoutBounds (p : GenericParam) : p.Cleared p.withoutBounds := by
  cases p with
  | type ident bounds default => exact .type ident bounds default
  | lifetime l bounds => exact .lifetime l bounds
  | const ident ty default => exact .const ident ty default

/-- What a parameter states is its inline predicate, if it has one. -/
theorem stated_eq (p : GenericParam) : p.stated = p.inlinePredicate?.toList := by
  cases p with
  | type ident bounds default => cases bounds <;> rfl
  | lifetime l bounds => cases bounds <;> rfl
  | const ident ty default => rfl

/-- A parameter that states nothing has no bounds to lose. -/
theorem withoutBounds_of_stated {p : GenericParam} (h : p.stated = []) : p.withoutBounds = p := by
  cases p with
  | type ident bounds default => cases bounds <;> simp_all [stated, withoutBounds]
  | lifetime l bounds => cases bounds <;> simp_all [stated, withoutBounds]
  | const ident ty default => rfl

end GenericParam

namespace Generics

/-- The generics `g'` of a scope that has the generics `g` and the directive `d`. -/
structure InScope (g : Generics) (d : Directive) (g' : Generics) : Prop where
  /-- The parameters are the same, in the same order, without their bounds. -/
  params : List.Forall₂ GenericParam.Cleared g.params g'.params
  /-- What was stated before is projected; the baselines and the literal predicates are not. -/
  predicates : g'.predicates =
    (g.predicates ++ g.params.flatMap GenericParam.stated).map (Predicate.project d.projected) ++
      d.projected.map Directive.baseline ++ d.literals
  /-- A where clause is attached if there is a predicate. -/
  clause : g'.clause = none ↔ g'.predicates = []

/-- What the parameters of a list state, in their order. -/
theorem inlinePredicates_eq (g : Generics) :
    g.inlinePredicates = g.params.flatMap GenericParam.stated := by
  rw [inlinePredicates, List.filterMap_eq_flatMap_toList]
  exact congrArg (List.flatMap · g.params) (funext fun p => p.stated_eq.symm)

/-- Normal generics have the parameters without their bounds. -/
theorem params_normalize (g : Generics) :
    g.normalize.params = g.params.map GenericParam.withoutBounds := by
  unfold normalize
  split
  · rename_i h
    -- no parameter states a bound, so that there is none to take away
    have hnone : g.params.flatMap GenericParam.stated = [] := by
      rw [← inlinePredicates_eq]
      simpa [isNormal] using h
    have hself : ∀ p ∈ g.params, p.withoutBounds = p := fun p hp =>
      GenericParam.withoutBounds_of_stated (List.flatMap_eq_nil_iff.mp hnone p hp)
    rw [List.map_congr_left hself, List.map_id']
  · rfl

/-- Normal generics have in their where clause first what stood there, and then what the parameters
state. -/
theorem predicates_normalize (g : Generics) :
    g.normalize.predicates = g.predicates ++ g.params.flatMap GenericParam.stated := by
  rw [← inlinePredicates_eq]
  unfold normalize
  split
  · rename_i h
    have hnone : g.inlinePredicates = [] := by simpa [isNormal] using h
    rw [hnone, List.append_nil]
  · rfl

theorem params_project (g : Generics) (d : Directive) : (g.project d).params = g.params := by
  unfold project
  split <;> rfl

/-- Projecting reaches every predicate, also where it looks at none. -/
theorem predicates_project (g : Generics) (d : Directive) :
    (g.project d).predicates = g.predicates.map (Predicate.project d.projected) := by
  unfold project
  split
  · rename_i h
    simp only [keepsUnder, Bool.or_eq_true, Option.isNone_iff_eq_none, List.isEmpty_iff] at h
    rcases h with h | h
    · simp [predicates, h]
    · have hid : Predicate.project [] = id := funext Predicate.project_nil
      rw [h, hid, List.map_id]
  · rfl

theorem predicates_augment (g : Generics) (d : Directive) :
    (g.augment d).predicates = g.predicates ++ d.additions := by
  by_cases h : (g.predicates ++ d.additions).isEmpty
  · rw [List.isEmpty_iff.mp h, augment, if_pos h]
    rfl
  · rw [augment, if_neg h]
    rfl

theorem clause_augment (g : Generics) (d : Directive) :
    (g.augment d).clause = none ↔ (g.augment d).predicates = [] := by
  rw [predicates_augment]
  simp [augment]

theorem params_expand (g : Generics) (d : Directive) :
    (g.expand d).params = g.params.map GenericParam.withoutBounds := by
  rw [expand, augment, params_project, params_normalize]

theorem inScope_expand (g : Generics) (d : Directive) : g.InScope d (g.expand d) where
  params := by
    rw [params_expand, List.forall₂_map_right_iff, List.forall₂_same]
    exact fun p _ => p.cleared_withoutBounds
  predicates := by
    rw [expand, predicates_augment, predicates_project, predicates_normalize, Directive.additions,
      Directive.baselines, List.append_assoc]
  clause := clause_augment _ d

end Generics

/-! ## Directives from mentions -/

namespace Directive

/-- A name that is mentioned again is projected once, at its first mention. -/
theorem projected_foldl_project (names : List String) (d : Directive) :
    (names.foldl project d).projected =
      d.projected ++ (names.removeAll d.projected).eraseDups ∧
    (names.foldl project d).literals = d.literals := by
  induction names generalizing d with
  | nil => simp
  | cons name names ih =>
    rw [List.foldl_cons, (ih _).1, (ih _).2]
    by_cases h : name ∈ d.projected
    · simp [project, h, List.removeAll]
    · have hfilter : names.removeAll (d.projected ++ [name]) =
          (names.removeAll d.projected).filter fun n => !n == name := by
        rw [List.removeAll, List.removeAll, List.filter_filter]
        refine List.filter_congr fun n _ => ?_
        simp [Bool.and_comm, beq_eq_decide]
      have hcons : (name :: names).removeAll d.projected = name :: names.removeAll d.projected := by
        simp [List.removeAll, h]
      rw [hcons, List.eraseDups_cons, ← hfilter]
      simp [project, h]

theorem literals_foldl_addLiteral (literals : List Predicate) (d : Directive) :
    literals.foldl addLiteral d = { d with literals := d.literals ++ literals } := by
  induction literals generalizing d with
  | nil => simp
  | cons p literals ih => simp [ih, addLiteral]

theorem projected_of (names : List String) (literals : List Predicate) :
    (of names literals).projected = names.eraseDups := by
  have hall : names.removeAll [] = names := by simp [List.removeAll]
  rw [of, literals_foldl_addLiteral, (projected_foldl_project names {}).1, hall]
  rfl

theorem literals_of (names : List String) (literals : List Predicate) :
    (of names literals).literals = literals := by
  rw [of, literals_foldl_addLiteral, (projected_foldl_project names {}).2]
  rfl

end Directive

/-! ## Scopes of an expansion -/

/-- A generated item beside the one that it is made from. A method is a scope of its own, whose
directive is read out of `s`. -/
inductive Item.InScope (s : Source) : Item Location → Item Location → Prop where
  | method {m m' : Method Location} {d : Directive} (hd : m.directive s = .ok d)
      (h : m.generics.InScope d m'.generics) : InScope s (.method m) (.method m')
  | verbatim (v : VerbatimItem Location) : InScope s (.verbatim v) (.verbatim v)

theorem Item.inScope_of_expand {s : Source} {i j : Item Location} (h : i.expand s = .ok j) :
    i.InScope s j := by
  rcases Item.expand_eq_ok h with ⟨v, rfl, rfl, -⟩ | ⟨m, d, rfl, hd, rfl⟩
  · exact .verbatim v
  · exact .method hd (m.generics.inScope_expand d)

/-- One equation for the generics of every scope: it holds of what the three steps make of any
generics under any directive, in which a name counts from its first mention on; and with their own
directives, it holds of the block and of each method that a successful expansion generates. -/
theorem scope_generics :
    (∀ (g : Generics) (d : Directive), g.InScope d ((g.normalize.project d).augment d)) ∧
    (∀ (names : List String) (literals : List Predicate),
      (Directive.of names literals).projected = names.eraseDups ∧
        (Directive.of names literals).literals = literals) ∧
    ∀ (r : Request) (e : Expansion), r.outcome.result = .ok e → ∃ b t d,
      r.input.implBlock = .ok b ∧ r.taskOf b = .ok (t, e.given) ∧ Directive.parse t.args = .ok d ∧
        b.generics.InScope d e.block.generics ∧
        List.Forall₂ (Item.InScope t.source) b.items e.block.items := by
  refine ⟨Generics.inScope_expand, fun names literals => ⟨Directive.projected_of names literals,
    Directive.literals_of names literals⟩, fun r e h => ?_⟩
  obtain ⟨b, t, d, hb, ht, hmade⟩ := Request.exists_made h
  obtain ⟨attrs, hblock⟩ := Request.taskOf_block ht
  refine ⟨b, t, d, hb, ht, hmade.directive, ?_, ?_⟩
  · have hgenerics : e.block.generics = b.generics.expand d := by
      rw [hmade.block, Task.generated, hblock]
    rw [hgenerics]
    exact b.generics.inScope_expand d
  · have hitems : t.block.items = b.items := by rw [hblock]
    rw [← hitems]
    exact hmade.items.imp fun _ _ => Item.inScope_of_expand

/-- A block and a method, each with bounds and a directive of its own. -/
theorem scope_generics_marked :
    ∃ (e : Expansion) (b : ImplBlock Location) (t : Task) (d : Directive),
      (Request.item "transform_bounds(T)"
        "impl<T: A> X<T> \x7b #[shadow_method(add_bounds(U: B))] fn f<U: C>(); \x7d"
        "<input>").outcome.result = .ok e ∧ Directive.parse t.args = .ok d ∧
      b.generics.InScope d e.block.generics ∧
        List.Forall₂ (Item.InScope t.source) b.items e.block.items := by
  obtain ⟨e, he⟩ := exists_of_isOk (x := (Request.item "transform_bounds(T)"
    "impl<T: A> X<T> \x7b #[shadow_method(add_bounds(U: B))] fn f<U: C>(); \x7d"
    "<input>").outcome.result) (by decide +kernel)
  obtain ⟨b, t, d, -, -, hd, hblock, hitems⟩ := scope_generics.2.2 _ e he
  exact ⟨e, b, t, d, he, hd, hblock, hitems⟩

end ShadowImpl
