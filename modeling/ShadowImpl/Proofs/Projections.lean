import ShadowImpl.Proofs.Scopes

/-!
# Projecting twice

What a projection writes in the place of a name is a path of two segments, and so no name that a
second projection would look for. Nor does it hide or uncover a root position. So projecting twice
is projecting once, with the names of both.
-/

namespace ShadowImpl

variable {first second both : List String}

/-- The names of `both` are those of `first` and those of `second`. -/
def Joins (first second both : List String) : Prop :=
  ∀ ident, ident ∈ both ↔ ident ∈ first ∨ ident ∈ second

/-- A shadow has two segments, and so it is not projected again. -/
theorem Ty.project_shadowed (projected : List String) (ident : String) :
    (Ty.shadowed ident).project projected = .shadowed ident := by
  rw [Ty.shadowed, Ty.project, Path.ident?]
  simp

/-- Only a path that is a lone name is projected. -/
theorem Ty.project_path (projected : List String) (path : Path) :
    (Ty.path path).project projected =
      match path.ident? with
      | some ident => if ident ∈ projected then .shadowed ident else .path path
      | none => .path path := by
  rw [Ty.project]
  cases path.ident? <;> simp

/-- A name is replaced by the first projection that has it, and then it is no name any more. -/
theorem Ty.path_project_project (h : Joins first second both) (path : Path) :
    ((Ty.path path).project first).project second = (Ty.path path).project both := by
  cases hident : path.ident? with
  | none => simp only [Ty.project_path, hident]
  | some ident =>
    by_cases hfirst : ident ∈ first
    · have hboth := (h ident).mpr (.inl hfirst)
      simp only [Ty.project_path, hident, hfirst, hboth, ↓reduceIte, Ty.project_shadowed]
    · have hboth : ident ∈ both ↔ ident ∈ second := by simp [h ident, hfirst]
      simp only [Ty.project_path, hident, hfirst, hboth, ↓reduceIte]

mutual

/-- A type is projected once for both sets of names. A name that the first set took is no lone name
any more. -/
theorem Ty.project_project (h : Joins first second both) (t : Ty) :
    (t.project first).project second = t.project both := by
  match t with
  | .path path => exact Ty.path_project_project h path
  | .qualified self asTrait path => simp only [Ty.project, Ty.project_project h self]
  | .ref lifetime mutable elem => simp only [Ty.project, Ty.project_project h elem]
  | .ptr mutable elem => simp only [Ty.project, Ty.project_project h elem]
  | .tuple elems => simp only [Ty.project, projectTys_projectTys h elems]
  | .paren elem => simp only [Ty.project, Ty.project_project h elem]
  | .slice elem => simp only [Ty.project, Ty.project_project h elem]
  | .array elem length => simp only [Ty.project, Ty.project_project h elem]
  | .never => simp only [Ty.project]
  | .implTrait bounds => simp only [Ty.project, projectBounds_projectBounds h bounds]
  | .dynTrait bounds => simp only [Ty.project, projectBounds_projectBounds h bounds]
  | .fnPtr lifetimes isUnsafe abi inputs output =>
    simp only [Ty.project, projectFnArgs_projectFnArgs h inputs,
      projectOutput_projectOutput h output]

theorem projectTys_projectTys (h : Joins first second both) (tys : List Ty) :
    projectTys second (projectTys first tys) = projectTys both tys := by
  match tys with
  | [] => simp only [projectTys]
  | ty :: tys => simp only [projectTys, Ty.project_project h ty, projectTys_projectTys h tys]

theorem projectOutput_projectOutput (h : Joins first second both) (output : Option Ty) :
    projectOutput second (projectOutput first output) = projectOutput both output := by
  match output with
  | none => simp only [projectOutput]
  | some ty => simp only [projectOutput, Ty.project_project h ty]

theorem projectFnArgs_projectFnArgs (h : Joins first second both) (args : List FnArg) :
    projectFnArgs second (projectFnArgs first args) = projectFnArgs both args := by
  match args with
  | [] => simp only [projectFnArgs]
  | ⟨name, ty⟩ :: args =>
    simp only [projectFnArgs, Ty.project_project h ty, projectFnArgs_projectFnArgs h args]

/-- The segments of a path are projected in their arguments only. -/
theorem projectSegments_projectSegments (h : Joins first second both) (segments : List Segment) :
    projectSegments second (projectSegments first segments) = projectSegments both segments := by
  match segments with
  | [] => simp only [projectSegments]
  | ⟨ident, args⟩ :: segments =>
    simp only [projectSegments, projectArgs_projectArgs h args,
      projectSegments_projectSegments h segments]

theorem projectArgs_projectArgs (h : Joins first second both) (args : Option PathArgs) :
    projectArgs second (projectArgs first args) = projectArgs both args := by
  match args with
  | none => simp only [projectArgs]
  | some args => simp only [projectArgs, PathArgs.project_project h args]

theorem PathArgs.project_project (h : Joins first second both) (args : PathArgs) :
    (args.project first).project second = args.project both := by
  match args with
  | .angle args turbofish =>
    simp only [PathArgs.project, projectGenericArgs_projectGenericArgs h args]
  | .paren inputs output =>
    simp only [PathArgs.project, projectTys_projectTys h inputs,
      projectOutput_projectOutput h output]

theorem projectGenericArgs_projectGenericArgs (h : Joins first second both)
    (args : List GenericArg) :
    projectGenericArgs second (projectGenericArgs first args) = projectGenericArgs both args := by
  match args with
  | [] => simp only [projectGenericArgs]
  | arg :: args =>
    simp only [projectGenericArgs, GenericArg.project_project h arg,
      projectGenericArgs_projectGenericArgs h args]

/-- An argument is projected once for both sets of names. -/
theorem GenericArg.project_project (h : Joins first second both) (arg : GenericArg) :
    (arg.project first).project second = arg.project both := by
  match arg with
  | .ty ty => simp only [GenericArg.project, Ty.project_project h ty]
  | .lifetime lifetime => simp only [GenericArg.project]
  | .binding ident ty => simp only [GenericArg.project, Ty.project_project h ty]
  | .constraint ident bounds => simp only [GenericArg.project, projectBounds_projectBounds h bounds]
  | .const text => simp only [GenericArg.project]

/-- A bound is projected once for both sets of names. -/
theorem Bound.project_project (h : Joins first second both) (bound : Bound) :
    (bound.project first).project second = bound.project both := by
  match bound with
  | .trait ⟨segments, rooted⟩ maybe lifetimes =>
    simp only [Bound.project, projectSegments_projectSegments h segments]
  | .lifetime lifetime => simp only [Bound.project]

theorem projectBounds_projectBounds (h : Joins first second both) (bounds : List Bound) :
    projectBounds second (projectBounds first bounds) = projectBounds both bounds := by
  match bounds with
  | [] => simp only [projectBounds]
  | bound :: bounds =>
    simp only [projectBounds, Bound.project_project h bound, projectBounds_projectBounds h bounds]

end

/-- A predicate is projected once for both sets of names. -/
theorem Predicate.project_project (h : Joins first second both) (p : Predicate) :
    (p.project first).project second = p.project both := by
  cases p with
  | type subject bounds lifetimes =>
    simp only [Predicate.project, Ty.project_project h subject,
      projectBounds_projectBounds h bounds]
  | lifetime l bounds => rfl

/-- Two sets of names are joined by their union. -/
theorem joins_union (first second : List String) : Joins first second (first ∪ second) :=
  fun _ => List.mem_union_iff

/-- A set of names joined with itself is the same set. -/
theorem joins_self (names : List String) : Joins names names names :=
  fun _ => or_self_iff.symm

/-- It does not matter which set of names comes first. -/
theorem Joins.symm (h : Joins first second both) : Joins second first both :=
  fun ident => (h ident).trans or_comm

theorem Predicate.map_project_project (h : Joins first second both) (ps : List Predicate) :
    (ps.map (Predicate.project first)).map (Predicate.project second) =
      ps.map (Predicate.project both) := by
  rw [List.map_map]
  exact List.map_congr_left fun p _ => p.project_project h

/-- Projecting nothing leaves predicates as they are. -/
theorem Predicate.map_project_nil (ps : List Predicate) : ps.map (Predicate.project []) = ps := by
  rw [List.map_congr_left fun p _ => Predicate.project_nil p, List.map_id']

/-- Where nothing is done without looking at a predicate, looking at each would change none. -/
theorem Generics.project_eq_map (g : Generics) (d : Directive) :
    g.project d = { g with clause := g.clause.map (List.map (Predicate.project d.projected)) } := by
  obtain ⟨params, clause⟩ := g
  cases clause with
  | none => rfl
  | some ps =>
    cases hd : d.projected with
    | nil => simp [Generics.project, Generics.keepsUnder, hd, Predicate.map_project_nil]
    | cons name names => simp [Generics.project, Generics.keepsUnder, Generics.predicates, hd]

/-- Projecting predicates twice is projecting them once, with the names of both; so a projection is
done once for all, two of them can change places, and the empty one does nothing. For generics that
is why the ones without a name to project are returned as they are. -/
theorem projections_compose (ps : List Predicate) (first second : List String) (g : Generics)
    (d : Directive) :
    (ps.map (Predicate.project first)).map (Predicate.project second) =
        ps.map (Predicate.project (first ∪ second)) ∧
      (ps.map (Predicate.project first)).map (Predicate.project first) =
        ps.map (Predicate.project first) ∧
      (ps.map (Predicate.project first)).map (Predicate.project second) =
        (ps.map (Predicate.project second)).map (Predicate.project first) ∧
      ps.map (Predicate.project []) = ps ∧
      g.project d =
        { g with clause := g.clause.map (List.map (Predicate.project d.projected)) } := by
  have hboth := Predicate.map_project_project (joins_union first second) ps
  have hswap := Predicate.map_project_project (joins_union first second).symm ps
  refine ⟨hboth, Predicate.map_project_project (joins_self first) ps, hboth.trans hswap.symm,
    Predicate.map_project_nil ps, g.project_eq_map d⟩

end ShadowImpl
