import ShadowImpl.Proofs.Additions
import ShadowImpl.Proofs.Projections

/-!
# How predicates end in print

No predicate that is read ends in a comma, and none does that is made of one by projection. The
texts that are kept as they are written, lengths of arrays and constant arguments, may end in
anything, but they stand in brackets.
-/

namespace ShadowImpl

open Reading

/-! ## Ends of texts -/

namespace Text

/-- Cutting commas off the end of the text leaves it as it is. -/
def Uncut (s : String) : Prop :=
  s.toList.getLast? ≠ some ','

instance (s : String) : Decidable (Uncut s) :=
  inferInstanceAs (Decidable (_ ≠ _))

variable {s t sep : String} {parts : List String}

/-- Two texts, of which the second may be empty. -/
theorem Uncut.append (hs : Uncut s) (ht : Uncut t) : Uncut (s ++ t) := by
  unfold Uncut at *
  rw [String.toList_append, List.getLast?_append]
  cases h : t.toList.getLast? with
  | none => exact hs
  | some c =>
    rw [h] at ht
    exact ht

/-- The end of a text is all that counts. -/
theorem Uncut.behind (s : String) (ht : Uncut t ∧ t ≠ "") : Uncut (s ++ t) := by
  unfold Uncut at *
  rw [String.toList_append, List.getLast?_append]
  have hne : t.toList ≠ [] := by simpa using ht.2
  rw [List.getLast?_eq_some_getLast hne] at ht ⊢
  exact ht.1

/-- A text without a comma. -/
theorem Uncut.of_not_mem (h : ',' ∉ s.toList) : Uncut s :=
  fun hlast => h (List.mem_of_getLast? hlast)

/-- A list of texts ends as its last one does, or as a separator if that is empty. -/
theorem Uncut.join (hsep : Uncut sep) (h : ∀ p ∈ parts, Uncut p) : Uncut (join sep parts) := by
  induction parts with
  | nil => exact (by decide : Uncut "")
  | cons p parts ih =>
    rw [List.forall_mem_cons] at h
    cases parts with
    | nil => exact h.1
    | cons q parts => exact (h.1.append hsep).append (ih h.2)

end Text

open Text (Uncut)

/-! ## Ends of phrases -/

/-- A subject with its bounds ends as the bounds do, or in the colon. -/
theorem uncut_printBounded (subject : String) {bounds : String} (h : Uncut bounds)
    (unbounded : Bool) : Uncut (printBounded subject bounds unbounded) := by
  unfold printBounded
  split
  · exact .behind _ (by decide)
  · exact .append (.behind _ (by decide)) h

/-- An output that is left out adds nothing. -/
theorem uncut_printOutput_project {projected : List String} {output : Option Ty}
    (h : ∀ t ∈ output.map (Ty.project projected), Uncut t.print) :
    Uncut (printOutput (projectOutput projected output)) := by
  cases output with
  | none =>
    rw [projectOutput, printOutput]
    decide
  | some t =>
    rw [projectOutput, printOutput]
    exact .append (by decide) (h _ rfl)

/-- A predicate ends like its last bound. -/
theorem uncut_type_predicate {projected : List String} {subject : Ty} {bounds : List Bound}
    {lifetimes : List Lifetime} (h : ∀ b ∈ bounds.map (Bound.project projected), Uncut b.print) :
    Uncut ((Predicate.type subject bounds lifetimes).project projected).print := by
  rw [Predicate.project, Predicate.print, projectBounds_eq_map]
  apply uncut_printBounded
  apply Uncut.join (by decide)
  rwa [List.forall_mem_map]

theorem uncut_binder (ls : List Lifetime) : Uncut (printBinder ls) := by
  unfold printBinder
  split
  · decide
  · exact .behind _ (by decide)

/-- A path ends as its segments do. -/
theorem uncut_path {segs : List Segment} (rooted : Bool)
    (h : Uncut (Text.join "::" (printSegments segs))) : Uncut (Path.print ⟨segs, rooted⟩) := by
  rw [Path.print]
  cases rooted with
  | true => exact .append (by decide) h
  | false => exact .append (by decide) h

/-- A type that is a path stays as it is or gets one more segment. -/
theorem uncut_project_path {p : Path} (h : Uncut p.print) (projected : List String) :
    Uncut ((Ty.path p).project projected).print := by
  rw [Ty.project_path]
  split
  · rename_i ident hident
    split
    · unfold Ty.shadowed
      rw [Ty.print_path]
      apply uncut_path
      simp only [printSegments, Segment.print, Text.join]
      exact .behind _ (by decide)
    · rwa [Ty.print_path]
  · rwa [Ty.print_path]

variable {s s' : Scan} {e : Expectation} {t : Token}

/-- A name that has been read has no comma. -/
theorem uncut_of_ident (h : s.Shifts .ident e t s') : Uncut (String.ofList t.text) := by
  apply Uncut.of_not_mem
  rw [String.toList_ofList]
  exact (isName_of_shifts h).not_mem rfl (by decide)

theorem uncut_of_lifetime (h : s.Shifts .lifetime e t s') : Uncut (String.ofList t.text) := by
  apply Uncut.of_not_mem
  rw [String.toList_ofList]
  exact (isLifetime_of_shifts h).not_mem rfl (by decide)

/-- A segment ends as its arguments do, if it has any. -/
theorem uncut_segment {ident : String} {args : Option PathArgs} (hident : Uncut ident)
    (hargs : ∀ a ∈ args, Uncut a.print) : Uncut (Segment.print ⟨ident, args⟩) := by
  cases args with
  | none => rwa [Segment.print]
  | some a =>
    rw [Segment.print]
    exact hident.append (hargs a rfl)

namespace Phrase

/-- No comma is cut off what can stand at the end of a predicate. The other phrases
stand in brackets. -/
def Uncut : (k : Phrase) → k.Value → Prop
  | ty, t => Text.Uncut t.print
  | path, p => Text.Uncut p.print
  | segments, segs => Text.Uncut (Text.join "::" (printSegments segs))
  | args, as => ∀ a ∈ as, Text.Uncut (PathArgs.print a)
  | bound, b => Text.Uncut b.print
  | lifetime _, l => Text.Uncut l.name
  | pluses k _, as => ∀ a ∈ as, k.Uncut a
  | orNone k _, as => ∀ a ∈ as, k.Uncut a
  | after _ _ k, a => ∀ x ∈ a, k.Uncut x
  | predicate, p => Text.Uncut p.print
  | predicates, ps => ∀ p ∈ ps, Text.Uncut (Predicate.print p)
  | genericArg, _ | fnArg, _ | binder, _ | commas _ _ _ _, _ => True

/-- Whatever is projected in the phrase, no comma is cut off its end. Paths are taken as they are
read even where types are projected, so what is read and what is projected are needed at once. -/
def Whole (k : Phrase) (v : k.Value) : Prop :=
  ∀ projected, k.Uncut (k.project projected v)

namespace Whole

variable {k : Phrase} {a : Ty} {segs : List Segment} {args : Option PathArgs} {bs : List Bound}
  {output : Option Ty} {ident : String}

/-- What is read is projected onto itself. -/
theorem uncut {v : k.Value} (h : Whole k v) : k.Uncut v := by
  have := h []
  rwa [project_nil] at this

/-! ### Types -/

/-- A type ends in a bracket, or as the last part of it does: here as the segments behind the
bracket. -/
theorem qualified {asTrait : Option Path} (hsegs : Whole .segments segs) :
    Whole .ty (.qualified a asTrait ⟨segs, false⟩) := by
  intro projected
  show Text.Uncut (Ty.print (Ty.project projected _))
  rw [Ty.project]
  cases asTrait with
  | none =>
    rw [Ty.print]
    exact .append (.behind _ (by decide)) (uncut_path false hsegs.uncut)
  | some trait =>
    rw [Ty.print]
    exact .append (.behind _ (by decide)) (uncut_path false hsegs.uncut)

/-- A reference and a pointer end as the type that they point to. -/
theorem ref (l : Option Lifetime) (mutable : Bool) (ha : Whole .ty a) :
    Whole .ty (.ref l mutable a) := by
  intro projected
  show Text.Uncut (Ty.print (Ty.project projected _))
  have hmutable : Text.Uncut (if mutable then "mut " else "") := by
    cases mutable <;> decide
  rw [Ty.project]
  cases l with
  | none =>
    rw [Ty.print]
    exact .append (.append (by decide) hmutable) (ha projected)
  | some l =>
    rw [Ty.print]
    exact .append (.append (.append (by decide) (.behind _ (by decide))) hmutable) (ha projected)

theorem ptr (mutable : Bool) (ha : Whole .ty a) : Whole .ty (.ptr mutable a) := by
  intro projected
  show Text.Uncut (Ty.print (Ty.project projected _))
  rw [Ty.project, Ty.print]
  exact .append (.behind _ (by decide)) (ha projected)

/-- A tuple and the types that are like it end in a bracket, whatever stands in there. -/
theorem tuple (elems : List Ty) : Whole .ty (.tuple elems) := by
  intro projected
  show Text.Uncut (Ty.print (Ty.project projected _))
  rw [Ty.project]
  match projectTys projected elems with
  | [] | [_] | _ :: _ :: _ =>
    rw [Ty.print]
    · exact .behind _ (by decide)
    all_goals simp

theorem paren (a : Ty) : Whole .ty (.paren a) := by
  intro projected
  show Text.Uncut (Ty.print (Ty.project projected _))
  rw [Ty.project, Ty.print]
  exact .behind _ (by decide)

theorem slice (a : Ty) : Whole .ty (.slice a) := by
  intro projected
  show Text.Uncut (Ty.print (Ty.project projected _))
  rw [Ty.project, Ty.print]
  exact .behind _ (by decide)

theorem array (a : Ty) (length : String) : Whole .ty (.array a length) := by
  intro projected
  show Text.Uncut (Ty.print (Ty.project projected _))
  rw [Ty.project, Ty.print]
  exact .behind _ (by decide)

theorem never : Whole .ty .never := by
  intro projected
  show Text.Uncut (Ty.print (Ty.project projected _))
  rw [Ty.project, Ty.print]
  show Text.Uncut "!"
  decide

/-- A type of traits ends as the last of its bounds. -/
theorem implTrait {e : Expectation} (hbs : Whole (.pluses .bound e) bs) :
    Whole .ty (.implTrait bs) := by
  intro projected
  show Text.Uncut (Ty.print (Ty.project projected _))
  rw [Ty.project, Ty.print, printEachBound_eq_map, projectBounds_eq_map]
  apply Text.Uncut.append (by decide)
  apply Text.Uncut.join (by decide)
  rw [List.forall_mem_map]
  exact hbs projected

theorem dynTrait {e : Expectation} (hbs : Whole (.pluses .bound e) bs) :
    Whole .ty (.dynTrait bs) := by
  intro projected
  show Text.Uncut (Ty.print (Ty.project projected _))
  rw [Ty.project, Ty.print, printEachBound_eq_map, projectBounds_eq_map]
  apply Text.Uncut.append (by decide)
  apply Text.Uncut.join (by decide)
  rw [List.forall_mem_map]
  exact hbs projected

/-- A function type ends as its output, or in the bracket of its inputs. -/
theorem fnPtr {κ : Terminal} {e : Expectation} {abi : Option String} (ls : List Lifetime)
    (isUnsafe : Bool) (inputs : List FnArg) (houtput : Whole (.after κ e .ty) output) :
    Whole .ty (.fnPtr ls isUnsafe abi inputs output) := by
  intro projected
  show Text.Uncut (Ty.print (Ty.project projected _))
  have houtput' := uncut_printOutput_project (houtput projected)
  rw [Ty.project]
  cases abi with
  | none =>
    rw [Ty.print]
    exact .append (.behind _ (by decide)) houtput'
  | some a =>
    rw [Ty.print]
    exact .append (.behind _ (by decide)) houtput'

/-! ### Paths -/

theorem last (hident : Text.Uncut ident) (hargs : Whole .args args) :
    Whole .segments [⟨ident, args⟩] := by
  intro projected
  show Text.Uncut (Text.join "::" (printSegments (projectSegments projected _)))
  rw [projectSegments, projectSegments, printSegments, printSegments]
  exact uncut_segment hident (hargs projected)

/-- Segments end as the last one does. -/
theorem more (hident : Text.Uncut ident) (hargs : Whole .args args) (hsegs : Whole .segments segs) :
    Whole .segments (⟨ident, args⟩ :: segs) := by
  intro projected
  show Text.Uncut (Text.join "::" (printSegments (projectSegments projected _)))
  have hsegment := uncut_segment hident (hargs projected)
  have hmore : Text.Uncut (Text.join "::" (printSegments (projectSegments projected segs))) :=
    hsegs projected
  rw [projectSegments, printSegments]
  cases h : printSegments (projectSegments projected segs) with
  | nil => exact hsegment
  | cons p parts =>
    rw [h] at hmore
    exact .append (.append hsegment (by decide)) hmore

theorem angle (as : List GenericArg) (turbofish : Bool) :
    Whole .args (some (.angle as turbofish)) := by
  intro projected
  show ∀ a ∈ projectArgs projected (some _), Text.Uncut a.print
  rw [projectArgs, PathArgs.project]
  rintro _ ⟨⟩
  rw [PathArgs.print]
  exact .behind _ (by decide)

/-- Arguments in parentheses end as their output does, or in the bracket. -/
theorem call {κ : Terminal} {e : Expectation} (inputs : List Ty)
    (houtput : Whole (.after κ e .ty) output) : Whole .args (some (.paren inputs output)) := by
  intro projected
  show ∀ a ∈ projectArgs projected (some _), Text.Uncut a.print
  rw [projectArgs, PathArgs.project]
  rintro _ ⟨⟩
  rw [PathArgs.print]
  exact .append (.behind _ (by decide)) (uncut_printOutput_project (houtput projected))

/-! ### Bounds and lists -/

theorem trait {p : Path} (maybe : Bool) (ls : List Lifetime) (hp : Whole .path p) :
    Whole .bound (.trait p maybe ls) := by
  intro projected
  show Text.Uncut (Bound.print (Bound.project projected _))
  rw [Bound.project_trait, Bound.print]
  apply Text.Uncut.append _ (hp projected)
  apply Text.Uncut.append _ (uncut_binder ls)
  cases maybe <;> decide

/-- A lifetime as a bound. -/
theorem outlives {e : Expectation} {l : Lifetime} (hl : Whole (.lifetime e) l) :
    Whole .bound (.lifetime l) := by
  intro projected
  show Text.Uncut (Bound.print (Bound.project projected _))
  rw [Bound.project, Bound.print]
  exact hl projected

/-- A list with `+` between its elements ends as the last one does. -/
theorem plusesCons {e : Expectation} {a : k.Value} {as : List k.Value} (ha : Whole k a)
    (has : Whole (.pluses k e) as) : Whole (.pluses k e) (a :: as) := by
  intro projected
  show ∀ a ∈ List.map _ _, _
  rw [List.map_cons, List.forall_mem_cons]
  exact ⟨ha projected, has projected⟩

theorem afterSome {κ : Terminal} {e : Expectation} {a : k.Value} (ha : Whole k a) :
    Whole (.after κ e k) (some a) := by
  intro projected
  rintro _ ⟨⟩
  exact ha projected

/-- A list of nothing. -/
theorem pluses_nil {e : Expectation} : Whole (.pluses k e) [] := by
  intro projected a ha
  contradiction

theorem lifetimePredicate {e e' : Expectation} {ls : List Lifetime} (l : Lifetime)
    (hls : Whole (.orNone (.lifetime e) e') ls) : Whole .predicate (.lifetime l ls) := by
  intro projected
  apply uncut_printBounded
  apply Text.Uncut.join (by decide)
  rw [List.forall_mem_map]
  exact hls.uncut

theorem predicatesCons {p : Predicate} {ps : List Predicate} (hp : Whole .predicate p)
    (hps : Whole .predicates ps) : Whole .predicates (p :: ps) := by
  intro projected
  show ∀ p ∈ List.map _ _, _
  rw [List.map_cons, List.forall_mem_cons]
  exact ⟨hp projected, hps projected⟩

end Whole

namespace Derives

/-- No phrase that has been read ends in a comma, nor does what a projection makes of it. The
phrases that are lists in brackets have no end of their own. -/
theorem whole {k : Phrase} {v : k.Value} (h : Derives k s v s') : Whole k v := by
  induction h with
  | path _ ih => exact uncut_project_path ih.uncut
  | qualified _ _ _ _ _ _ _ _ ihsegs => exact .qualified ihsegs
  | ref _ _ _ _ ih => exact .ref _ _ ih
  | ptr mutable _ _ _ ih => exact .ptr mutable ih
  | unit => exact .tuple []
  | tuple => exact .tuple _
  | paren => exact .paren _
  | slice => exact .slice _
  | array => exact .array _ _
  | never => exact .never
  | implTrait _ _ ih => exact .implTrait ih
  | dynTrait _ _ ih => exact .dynTrait ih
  | fnPtr _ _ _ _ _ _ _ _ _ ihoutput => exact .fnPtr _ _ _ ihoutput
  | segments _ _ ih => exact fun projected => uncut_path _ (ih projected)
  | last _ hname _ _ ih => exact .last (uncut_of_ident hname) ih
  | more _ hname _ _ _ ihargs ihsegs => exact .more (uncut_of_ident hname) ihargs ihsegs
  | angle | turbofish => exact .angle _ _
  | call _ _ _ _ ihoutput => exact .call _ ihoutput
  -- these phrases stand in brackets
  | lifetimeArg | binding | constraint | constArg | pathArg | tyArg => exact fun _ => trivial
  | namedParam | pathParam | tyParam => exact fun _ => trivial
  | unbound | bound | commasNil | commasLast | commasCons => exact fun _ => trivial
  | noArgs | afterNone | orNone | predicatesNil =>
    intro projected a ha
    contradiction
  | outlives _ ih => exact .outlives ih
  | trait _ _ _ _ ihp => exact .trait _ _ ihp
  | lifetime h => exact fun _ => uncut_of_lifetime h
  | plusesLast _ _ _ ih => exact .plusesCons ih .pluses_nil
  | plusesCons _ _ _ _ iha ihas => exact .plusesCons iha ihas
  | afterSome _ _ _ ih => exact .afterSome ih
  | orSome _ _ ih => exact ih
  | tyPredicate _ _ _ _ ihbs => exact fun projected => uncut_type_predicate (ihbs projected)
  | boundPredicate _ _ _ _ _ _ _ ihbs =>
    exact fun projected => uncut_type_predicate (ihbs projected)
  | lifetimePredicate _ _ _ _ ihls => exact .lifetimePredicate _ ihls
  | predicatesLast _ _ ih => exact .predicatesCons ih fun _ _ h => by contradiction
  | predicatesCons _ _ _ ihp ihps => exact .predicatesCons ihp ihps

/-- What a phrase comes to has no comma at its end in print. -/
theorem uncut {k : Phrase} {v : k.Value} (h : Derives k s v s') (projected : List String) :
    k.Uncut (k.project projected v) :=
  h.whole projected

end Derives
end Phrase

/-! ## Predicates -/

/-- No comma is cut off the predicate, whatever is projected in it. -/
def Predicate.Uncut (p : Predicate) : Prop :=
  ∀ projected, Text.Uncut (p.project projected).print

namespace Predicate

/-- A predicate that ends in no comma does not in print. -/
theorem Uncut.print {p : Predicate} (h : p.Uncut) : Text.Uncut p.print := by
  have := h []
  rwa [project_nil] at this

/-- Nor does it after a projection: what it ends with is projected as well. -/
theorem Uncut.project {p : Predicate} (h : p.Uncut) (projected : List String) :
    (p.project projected).Uncut := by
  intro more
  rw [project_project (joins_union projected more)]
  exact h _

/-- The baseline of a parameter ends in the name of the trait. -/
theorem uncut_baseline (ident : String) : (Directive.baseline ident).Uncut := by
  intro projected
  apply uncut_type_predicate
  rw [List.map_singleton, List.forall_mem_singleton, Bound.project_trait, Bound.print]
  apply Text.Uncut.append (by decide)
  unfold Path.project Path.ofIdent
  apply uncut_path
  simp only [projectSegments, projectArgs, printSegments, Segment.print, Text.join]
  decide

end Predicate

end ShadowImpl
