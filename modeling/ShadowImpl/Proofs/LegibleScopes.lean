import ShadowImpl.Proofs.PrintedClauses
import ShadowImpl.Proofs.RootPositions

/-!
# The generics of a scope in print

What the generics of a block or of a method come to under a directive is legible: the
parameters without their bounds, and the predicates that were there before, that the bounds
state and that are added.
-/

namespace ShadowImpl

open Filter Lexeme Recogniser Reading

variable {s s' : Scan} {n : Nat} {p : Predicate} {projected : List String} {g : Generics}
    {d : Directive}
  {z : List Char}

/-! ## Plain projections -/

namespace Part

variable {P : Label → Prop} {f : Address → Part → Option Part}

mutual

theorem all_of_replace (hf : ∀ a part new, f a part = some new → new.All P → part.All P)
    (a : Address) (part : Part) (h : (part.replace f a).All P) : part.All P := by
  cases part with
  | node label children =>
    rw [replace] at h
    cases hnew : f a (node label children) with
    | some new =>
      rw [hnew] at h
      exact hf a _ new hnew h
    | none =>
      rw [hnew] at h
      simp only [all_node] at h ⊢
      exact ⟨h.1, allEach_of_replaceEach hf a children h.2⟩

theorem allEach_of_replaceEach (hf : ∀ a part new, f a part = some new → new.All P → part.All P)
    (a : Address) (children : List Child) (h : AllEach P (replaceEach f a children)) :
    AllEach P children := by
  match children with
  | [] => simp
  | ⟨role, part⟩ :: children =>
    rw [replaceEach, allEach_cons] at h
    rw [allEach_cons]
    exact ⟨all_of_replace hf _ part h.1, allEach_of_replaceEach hf a children h.2⟩

end

/-- A name is plain if what it is projected to is. -/
theorem plain_of_shadow? {a : Address} {part new : Part} (h : shadow? projected a part = some new)
    (hnew : new.All Label.Plain) : part.All Label.Plain := by
  rw [shadow?] at h
  split at h
  · rename_i name hname
    split at h
    · obtain rfl := Option.some.inj h
      unfold name? at hname
      split at hname
      · obtain rfl := Option.some.inj hname
        simp only [ofNames, List.map_cons, List.map_nil, all_node, allEach_cons] at hnew ⊢
        exact ⟨hnew.1, ⟨hnew.2.1.1, hnew.2.1.2.1, allEach_nil⟩, allEach_nil⟩
      · simp at hname
    · simp at h
  · simp at h

end Part

theorem Predicate.plain_of_project (h : (p.project projected).view.All Label.Plain) :
    p.view.All Label.Plain := by
  rw [← Predicate.projectRoots_view, Part.projectRoots] at h
  exact Part.all_of_replace (fun _ _ _ => Part.plain_of_shadow?) [] _ h

/-! ## Generics that are read -/

/-- The generics have been read in front of a text that closes everything. -/
structure Generics.Closed (g : Generics) : Prop where
  params : ∀ p ∈ g.params, ∃ s s' : Scan, s.expected = Expected.param ∧ s.Param s' p ∧ Shuts s'.rest
  predicates : ∀ q ∈ g.predicates, ∃ s s', Phrase.Derives .predicate s q s' ∧ Shuts s'.rest

namespace Grammar

theorem predicates_closed {e : Expectation} {ps : List Predicate} (hs : Shuts s'.rest)
    (h : (predicates e n).run s = .ok (ps, s')) :
    ∀ q ∈ ps, ∃ s s', Phrase.Derives .predicate s q s' ∧ Shuts s'.rest := by
  refine openList_induction
    (P := fun _ ps => ∀ q ∈ ps, ∃ s s', Phrase.Derives .predicate s q s' ∧ Shuts s'.rest)
    (fun _ => by simp) ?_ ?_ h
  · intro s q hq _
    rw [List.forall_mem_singleton]
    exact ⟨s, s', predicate_derives hq, hs⟩
  · intro s s₁ t r q ps m hq hnext _ hps ih
    rw [List.forall_mem_cons]
    have hreach := Scan.Reaches.step hnext (Scan.reaches_of_run hps)
    exact ⟨⟨s, s₁, predicate_derives hq, hs.of_suffix hreach.rest_suffix⟩, ih⟩

theorem generics_closed {ps : List GenericParam} {clause : Option (List Predicate)}
    {s₁ s₂ s₃ : Scan} {m : Nat} (hps : (params n).run s = .ok (ps, s₁)) (hreach : s₁.Reaches s₂)
    (hclause : (whereClause m).run s₂ = .ok (clause, s₃)) (hs : Shuts s₃.rest) :
    Generics.Closed ⟨ps, clause⟩ where
  params := by
    intro p hp
    obtain ⟨s₄, s₅, he, hparam, hreach'⟩ := params_param hps p hp
    exact ⟨s₄, s₅, he, hparam,
      hs.of_suffix ((hreach'.trans hreach).trans (Scan.reaches_of_run hclause)).rest_suffix⟩
  predicates := by
    rw [whereClause] at hclause
    obtain ⟨present, s₄, -, hclause⟩ := run_bind_eq_ok.mp hclause
    split at hclause
    · obtain ⟨qs, s₅, hqs, hclause⟩ := run_bind_eq_ok.mp hclause
      obtain ⟨rfl, rfl⟩ := of_run_pure hclause
      exact predicates_closed hs hqs
    · obtain ⟨rfl, rfl⟩ := of_run_pure hclause
      simp [Generics.predicates]

end Grammar

/-! ## Under a directive -/

theorem Directive.baseline_legible {name : String} (hname : IsName name.toList)
    (hplain : (Directive.baseline name).view.All Label.Plain) :
    (Directive.baseline name).Legible := by
  intro z hz
  refine Directive.baseline_read hname (fun hreserved => ?_) hz
  obtain ⟨κ, hκ, -, hspelling⟩ := Directive.mem_reserved.mp hreserved
  simp only [Directive.baseline, Predicate.view, Ty.ofIdent, Path.ofIdent, Ty.view,
    Path.view, viewSegments, Part.all_node, Part.allEach_cons, Label.Plain] at hplain
  exact hplain.2.1.2.1.2.1.1 κ hκ hspelling

/-- The types of the parameters and the predicates are plain. -/
structure Generics.Plain (g : Generics) : Prop where
  params : ∀ p ∈ g.params, p.Plain
  predicates : ∀ q ∈ g.predicates, q.view.All Label.Plain

namespace Generics.Closed

/-- The predicates of a scope are legible. -/
theorem predicates_legible (h : g.Closed)
    (hnames : ∀ name ∈ d.projected, IsName name.toList)
    (hd : ∀ q ∈ d.literals, q.view.All Label.Plain → q.Legible)
    (hplain : ∀ q ∈ (g.expand d).predicates, q.view.All Label.Plain) :
    ∀ q ∈ (g.expand d).predicates, q.Legible := by
  intro q hq
  have hq' := hplain q hq
  rw [(g.inScope_expand d).predicates, List.mem_append, List.mem_append] at hq
  rcases hq with (hq | hq) | hq
  · obtain ⟨q, hmem, rfl⟩ := List.mem_map.mp hq
    have hplain' := Predicate.plain_of_project hq'
    rcases List.mem_append.mp hmem with hmem | hmem
    · obtain ⟨s, s', hderives, hs⟩ := h.predicates q hmem
      exact hderives.predicate_legible hs hplain' _
    · obtain ⟨p, hp, hmem⟩ := List.mem_flatMap.mp hmem
      obtain ⟨s, s', -, hparam, hs⟩ := h.params p hp
      exact hparam.stated_legible hs _ q hmem hplain'
  · obtain ⟨name, hname, rfl⟩ := List.mem_map.mp hq
    exact Directive.baseline_legible (hnames name hname) hq'
  · exact hd q hq hq'

theorem clausal (h : g.Closed) (hnames : ∀ name ∈ d.projected, IsName name.toList)
    (hd : ∀ q ∈ d.literals, q.view.All Label.Plain → q.Legible)
    (hplain : ∀ q ∈ (g.expand d).predicates, q.view.All Label.Plain) :
    Grammar.Clausal (g.expand d).clause := by
  refine ⟨fun hempty => ?_, h.predicates_legible hnames hd hplain⟩
  have hnone := (g.inScope_expand d).clause.mpr (by simp [Generics.predicates, hempty])
  simp [hnone] at hempty

/-- The parameters of a scope are read again. -/
theorem param_read (h : g.Closed) (hplain : ∀ p ∈ (g.expand d).params, p.Plain) :
    ∀ p ∈ (g.expand d).params, ∀ z, Grammar.ParamEnds z → Grammar.ParamRead p z := by
  intro p hp z hz
  have hp' := hplain p hp
  rw [params_expand] at hp
  obtain ⟨p, hmem, rfl⟩ := List.mem_map.mp hp
  obtain ⟨s, s', he, hparam, hs⟩ := h.params p hmem
  refine hparam.read he hs ?_ hz
  cases p <;> exact hp'

/-- So they are without their defaults. -/
theorem param_read_withoutDefault (h : g.Closed)
    (hplain : ∀ p ∈ (g.expand d).params, p.withoutDefault.Plain) :
    ∀ p ∈ (g.expand d).params.map GenericParam.withoutDefault, ∀ z, Grammar.ParamEnds z →
    Grammar.ParamRead p z := by
  intro p hp z hz
  obtain ⟨q, hq, rfl⟩ := List.mem_map.mp hp
  have hq' := hplain q hq
  rw [params_expand] at hq
  obtain ⟨r, hr, rfl⟩ := List.mem_map.mp hq
  obtain ⟨s, s', he, hparam, hs⟩ := h.params r hr
  have hread := hparam.withoutDefault.read he hs (by cases r <;> exact hq') hz
  cases r <;> exact hread

end Generics.Closed
end ShadowImpl
