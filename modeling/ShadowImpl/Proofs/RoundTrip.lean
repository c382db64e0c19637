import ShadowImpl.Proofs.Legibility

/-!
# Printing and reading again

Each form of syntax survives being printed if its parts do: in front of all that may stand behind
it, it is read as what it was. All that is read is therefore read again from its printed form, and
so is what a projection makes of it.
-/

namespace ShadowImpl

open Filter Lexeme Recogniser Reading

variable {s s' s₁ : Scan} {e : Expectation} {κ : Terminal} {t : Token} {w y z r : List Char}
    {c : Char}

/-! ## Forms of syntax -/

namespace Phrase

open Grammar

variable {k : Phrase} {e' : Expectation} {close : Terminal}

/-- A plain phrase that ends at `s` is legible in print, in front of all that may stand there. So is
what a projection makes of it. -/
def Survives (k : Phrase) (v : k.Value) (s : Scan) : Prop :=
  k.All Label.Plain v → ∀ (projected : List String) (z : List Char),
    k.Ready s z → k.Legible (k.project projected v) z

namespace Survives

attribute [local simp] All Label.Plain Ty.view Path.view GenericArg.view Bound.view PathArgs.view
  Predicate.view viewSegments viewArgs viewTys

variable {s₂ s₃ s₄ s₅ : Scan} {u v : Token} {a : Ty} {p : Path} {segs : List Segment}
  {args : Option PathArgs} {as : List GenericArg} {ls : List Lifetime} {output : Option Ty}

/-! ### Types -/

/-- A projection may add a segment to a path, so what is known of the path is used
without a projection. -/
theorem path (h : Derives .path s p s') (hp : Survives .path p s') : Survives .ty (.path p) s' := by
  intro hplain projected z hz
  cases h with
  | @segments _ _ _ rooted segs hrooted hsegs =>
    have hsegs' := hp (by simpa using hplain) [] z hz
    rw [project, Path.project_nil] at hsegs'
    obtain ⟨segs', heq, hsegs'⟩ := hsegs.path_legible hsegs' hz rooted projected
    rw [project, heq]
    exact (hsegs'.pathed rooted).typed

/-- Behind the bracket that closes a qualified type, the segments stand as they did. -/
theorem qualified_close (hgt : s₁.Shifts .gt [.pathSep] u s₂)
    (hsep : s₂.Shifts .pathSep Expected.name v s) (h : Derives .segments s segs s')
    (hz : Continues s' z) : Continues s₁
      (Terminal.gt.spelling ++ (Terminal.pathSep.spelling ++ (segmentChars segs ++ z))) := by
  refine .front (c := '>') (by simp) ?_
  have hq := h.quiet_front [] hz.quiet hz.ends.breaks
  simpa [print, project, segmentChars, Terminal.spelling] using
    (hgt.reaches.trans hsep.reaches).quiet hq

/-- The brackets of a qualified path are printed as they were read, and its segments behind `::`. -/
theorem qualified {asTrait : Option Path}
    (has : Derives (.after .kwAs Expected.path .path) s₂ asTrait s₃)
    (hgt : s₃.Shifts .gt [.pathSep] u s₄) (hsep : s₄.Shifts .pathSep Expected.name v s₅)
    (hsegs : Derives .segments s₅ segs s') (hself : Survives .ty a s₂)
    (hasTrait : Survives (.after .kwAs Expected.path .path) asTrait s₃)
    (hname : Survives .segments segs s') :
    Survives .ty (.qualified a asTrait ⟨segs, false⟩) s' := by
  intro hplain projected z hz
  simp only [All, Ty.view, Path.view, Part.all_node, Part.allEach_cons, Part.allEach_append,
    Part.allEach_viewAsTrait] at hplain
  obtain ⟨-, ⟨hplain, hplain'⟩, hplain'', -⟩ := hplain
  have hclose := qualified_close hgt hsep hsegs hz
  have hne : ∀ e, (Next.of e (Terminal.gt.spelling ++ (Terminal.pathSep.spelling ++
      (segmentChars segs ++ z)))).kind ≠ .kwAs :=
    fun e => kind_ne_of_not_opens (by decide) hclose.ends.slash (by
      simp [Opens, Terminal.spelling, isLayout, List.cons_prefix_cons])
  have has' := hasTrait hplain' [] _ ⟨hclose, hne⟩
  have hsegs' := hname hplain''.2 [] z hz
  rw [project, projectSegments_nil] at hsegs'
  rw [project, Ty.project]
  refine .qualified (hself hplain projected _ ?_) ?_ hsegs'
  · -- The self type stands in front of `as`, or of the closing bracket.
    cases has with
    | afterNone => exact hclose
    | afterSome _ has hp =>
      have hq := hp.quiet_front [] hclose.quiet hclose.ends.breaks
      simp only [print, project, Path.project_nil] at hq
      rw [asChars, List.cons_append, List.append_assoc]
      exact .as_front (has.reaches.quiet (by simpa using hq))
  · cases asTrait with
    | none => exact has'
    | some p =>
      obtain ⟨segs', rooted⟩ := p
      have hp : Segmented segs' (Terminal.gt.spelling ++ (Terminal.pathSep.spelling ++
          (segmentChars segs ++ z))) := by
        simpa only [Legible, project, Option.map_some, Path.project_nil] using has'
      exact hp.pathed rooted

/-- A reference is read again with its lifetime. -/
theorem ref {l : Option Lifetime} {mutable : Bool} (hl : s.RefLifetime l s₁)
    (ha : Survives .ty a s') : Survives .ty (.ref l mutable a) s' := by
  intro hplain projected z hz
  rw [project, Ty.project]
  refine .ref ?_ _ (ha (by simpa using hplain) projected z hz)
  cases hl with
  | absent => simp
  | present hl => simpa using isLifetime_of_shifts hl

theorem ptr (mutable : Bool) (ha : Survives .ty a s') : Survives .ty (.ptr mutable a) s' := by
  intro hplain projected z hz
  rw [project, Ty.project]
  exact .ptr mutable (ha (by simpa using hplain) projected z hz)

/-- A tuple with one element keeps its comma. With more elements the first one is a type in front of
a list. -/
theorem tuple {elems : List Ty} (hcomma : s₁.Shifts .comma Expected.typeOrClose u s₂)
    (h : Derives (.commas .ty .rpar Expected.typeOrClose Expected.afterType) s₂ elems s')
    (ha : Survives .ty a s₁)
    (helems : Survives (.commas .ty .rpar Expected.typeOrClose Expected.afterType) elems s') :
    Survives .ty (.tuple (a :: elems)) s' := by
  intro hplain projected z hz
  simp only [All, Ty.view, viewTys, Part.all_node, Part.allEach_cons,
    Part.allEach_viewTys] at hplain
  rw [project, Ty.project, projectTys, projectTys_eq_map]
  have hq := h.quiet_front projected hz.quiet hz.ends.breaks
  refine .tuple (g := if elems = [] then [] else [' ']) ?_ ?_ (ha hplain.2.1 projected _ ?_)
    (helems hplain.2.2 projected z ⟨hz.ends.breaks, hz.quiet⟩)
  · split
    · exact isLayout_nil
    · exact isLayout_space
  · rw [Ty.print_tuple_cons, printTys_eq_map]
    simp [Terminal.spelling]
  · refine .front (c := ',') (by simp) ?_
    have hq' := hcomma.reaches.quiet hq
    simp only [print, project, String.toList_append, String.toList_ofList] at hq'
    rw [printTys_eq_map]
    split <;> simpa using hq'

/-- In brackets nothing goes on with a type. -/
theorem paren (hclose : s.Shifts .rpar Expected.afterType t s') (ha : Survives .ty a s) :
    Survives .ty (.paren a) s' := by
  intro hplain projected z hz
  rw [project, Ty.project]
  refine .paren (ha (by simpa using hplain) projected _ ?_)
  exact .front (c := ')') (by simp) (by simpa using hclose.reaches.quiet hz.quiet)

theorem slice (hclose : s.Shifts .rsqb Expected.afterType t s') (ha : Survives .ty a s) :
    Survives .ty (.slice a) s' := by
  intro hplain projected z hz
  rw [project, Ty.project]
  refine .slice (ha (by simpa using hplain) projected _ ?_)
  exact .front (c := ']') (by simp) (by simpa using hclose.reaches.quiet hz.quiet)

/-- A length that is plain is not changed by trimming it, and it is read again as the
same tokens. -/
theorem array {n : Nat} (hsemi : s.Shifts .semi Expected.anything t s₁)
    (hlength : (Grammar.someTrees [.comma, .semi] n).run s₁ = .ok ((), s₂))
    (hclose : s₂.Shifts .rsqb Expected.afterType u s') (ha : Survives .ty a s) :
    Survives .ty (.array a (String.ofList (Text.trim (s₂.textFrom s₁.taken.length)))) s' := by
  intro hplain projected z hz
  simp only [All, Ty.view, Label.Plain, Part.all_node, Part.allEach_cons] at hplain
  have hq := hclose.reaches.quiet hz.quiet
  obtain ⟨-, htext, hagain⟩ := length_again hsemi.expected hlength hclose.next hclose.kind
  obtain ⟨htrim, hagain⟩ := hagain (by simpa using hplain.1)
  rw [project, Ty.project, htrim]
  refine .array (ha hplain.2.1 projected _ ?_) ?_ ?_
  · refine .front (c := ';') (by simp) ?_
    have hq' := (hsemi.reaches.quiet (.of_piece htext)).append (z := ']' :: z)
      (by simpa using (hsemi.reaches.trans (Scan.reaches_of_run hlength)).quiet hq)
      (by simp [Breaks, isBreak])
    simpa [Terminal.spelling] using hq'
  · simpa using htrim
  · simpa [Terminal.spelling] using hagain z (by simpa using hq) [' '] isLayout_space

/-- The bounds of a type of traits go on as far as there are any, so nothing that adds one may
follow. -/
theorem implTrait {bs : List Bound} (hbs : Survives (.pluses .bound Expected.bound) bs s') :
    Survives .ty (.implTrait bs) s' := by
  intro hplain projected z hz
  rw [project, Ty.project, projectBounds_eq_map]
  exact .implTrait (hbs (by simpa using hplain) projected z hz)

theorem dynTrait {bs : List Bound} (hbs : Survives (.pluses .bound Expected.bound) bs s') :
    Survives .ty (.dynTrait bs) s' := by
  intro hplain projected z hz
  rw [project, Ty.project, projectBounds_eq_map]
  exact .dynTrait (hbs (by simpa using hplain) projected z hz)

/-- What stands behind an output may stand behind the inputs in front of it. -/
theorem output_front (h : Derives (.after .arrow Expected.type .ty) s output s')
    (projected : List String) (hz : Continues s' z) :
    Breaks ((printOutput (projectOutput projected output)).toList ++ z) ∧
      Quiet s.rest ((printOutput (projectOutput projected output)).toList ++ z) := by
  have hq := h.quiet_front projected hz.quiet hz.ends.breaks
  rw [project_output, print_output] at hq
  exact ⟨Derives.breaks_output hz.ends.breaks, hq⟩

/-- A function type in print: its inputs are a list in brackets, and behind its output stands what
stands behind the type. -/
theorem fnPtr {isUnsafe : Bool} {abi : Option String} {inputs : List FnArg} (habi : s.Abi abi s₁)
    (h : Derives (.after .arrow Expected.type .ty) s₂ output s') (hls : Survives .binder ls s₃)
    (hinputs : Survives (.commas .fnArg .rpar Expected.typeOrClose Expected.afterType) inputs s₂)
    (houtput : Survives (.after .arrow Expected.type .ty) output s') :
    Survives .ty (.fnPtr ls isUnsafe abi inputs output) s' := by
  intro hplain projected z hz
  simp only [All, Ty.view, Part.all_node, Part.allEach_append, Part.allEach_viewFnArgs,
    Part.allEach_viewOutput] at hplain
  rw [project, Ty.project, projectFnArgs_eq_map]
  refine .fnPtr (hls trivial projected z trivial) (Derives.isAbi habi)
    (hinputs hplain.2.1 projected _ (output_front h projected hz)) ?_
  have houtput' := houtput hplain.2.2 projected z ⟨hz, fun e => hz.ends.kind_ne e (by simp)⟩
  cases output <;> exact houtput'

/-! ### Paths -/

/-- A path is its segments, with or without `::` in front. -/
theorem segments {rooted : Bool} (hsegs : Survives .segments segs s') :
    Survives .path ⟨segs, rooted⟩ s' := by
  intro hplain projected z hz
  simp only [All, Path.view, Part.all_node] at hplain
  exact hsegs hplain.2 projected z hz

/-- The last segment: no `::` follows it in print either. -/
theorem last (hname : s.Shifts .ident e t s₁) (hend : s'.next.kind ≠ .pathSep)
    (hargs : Survives .args args s') : Survives .segments [⟨String.ofList t.text, args⟩] s' := by
  intro hplain projected z hz
  simp only [All, viewSegments, Part.allEach_cons, Part.all_node] at hplain
  exact .mk (isPlainName_of_shifts hname (by simpa using hplain.1.1))
    (hargs hplain.1.2 projected z hz) (.nil (hz.kind_ne_sep hend))

/-- A segment in front of others. Behind it a `::` stands in print, which ends its arguments. -/
theorem more (hname : s.Shifts .ident e t s₁) (hsep : s₂.Shifts .pathSep Expected.pathPiece u s₃)
    (h : Derives .segments s₃ segs s') (hargs : Survives .args args s₂)
    (hsegs : Survives .segments segs s') :
    Survives .segments (⟨String.ofList t.text, args⟩ :: segs) s' := by
  intro hplain projected z hz
  simp only [All, viewSegments, Part.allEach_cons, Part.all_node] at hplain
  have hsegs' := hsegs hplain.2 projected z hz
  have hq := hsep.reaches.quiet (h.quiet_front projected hz.quiet hz.ends.breaks)
  refine .mk (isPlainName_of_shifts hname (by simpa using hplain.1.1))
    (hargs hplain.1.2 projected _ ?_) (.cons hsegs')
  rw [Derives.moreChars_eq (Derives.projectSegments_ne_nil h.segments_ne_nil), List.append_assoc]
  exact .sep_front hsep.kind_next hq

/-- Arguments in angle brackets are read again as the list that they are. -/
theorem angle {turbofish : Bool}
    (has : Survives (.commas .genericArg .gt Expected.genericArg Expected.afterType) as s') :
    Survives .args (some (.angle as turbofish)) s' := by
  intro hplain projected z hz
  rw [project, projectArgs, PathArgs.project, projectGenericArgs_eq_map]
  refine has ?_ projected z ⟨hz.ends.breaks, hz.quiet⟩
  simpa using hplain

/-- Arguments in parentheses, with the output behind them. -/
theorem call {inputs : List Ty} (h : Derives (.after .arrow Expected.type .ty) s output s')
    (hinputs : Survives (.commas .ty .rpar Expected.typeOrClose Expected.afterType) inputs s)
    (houtput : Survives (.after .arrow Expected.type .ty) output s') :
    Survives .args (some (.paren inputs output)) s' := by
  intro hplain projected z hz
  simp only [All, viewArgs, PathArgs.view, Part.allEach_cons, Part.all_node, Part.allEach_append,
    Part.allEach_viewTys, Part.allEach_viewOutput] at hplain
  rw [project, projectArgs, PathArgs.project, projectTys_eq_map]
  refine ⟨hinputs hplain.1.2.1 projected _ (output_front h projected hz), ?_⟩
  have houtput' := houtput hplain.1.2.2 projected z ⟨hz, fun e => hz.ends.kind_ne e (by simp)⟩
  cases output <;> exact houtput'

/-! ### Arguments -/

/-- A name with a type is read again as a binding, as `=` follows the name. -/
theorem binding (hname : s.Shifts .ident Expected.afterLabel t s₁) (ha : Survives .ty a s') :
    Survives .genericArg (.binding (String.ofList t.text) a) s' := by
  intro hplain projected z hz
  simp only [All, GenericArg.view, Part.all_node, Part.allEach_cons] at hplain
  rw [project, GenericArg.project]
  exact .binding (isPlainName_of_shifts hname (by simpa using hplain.1))
    (ha hplain.2.1 projected z (Separated.continues hz))

/-- A name with bounds is read again as a constraint, as `:` follows the name. -/
theorem constraint {bs : List Bound} (hname : s.Shifts .ident Expected.afterLabel t s₁)
    (hbs : Survives (.pluses .bound Expected.bound) bs s') :
    Survives .genericArg (.constraint (String.ofList t.text) bs) s' := by
  intro hplain projected z hz
  simp only [All, GenericArg.view, Part.all_node, Part.allEach_viewBounds] at hplain
  rw [project, GenericArg.project, projectBounds_eq_map]
  exact .constraint (isPlainName_of_shifts hname (by simpa using hplain.1))
    (hbs hplain.2 projected z (Separated.continues hz))

/-- A constant is kept as it was written, and so it is found again. -/
theorem constArg {n : Nat} {text : String} (h : (Grammar.constText n).run s = .ok (text, s')) :
    Survives .genericArg (.const text) s' := by
  intro hplain projected z hz
  have hz' := Separated.continues hz
  exact .const ((constText_again h).2 z hz'.ends.breaks hz'.quiet _ (by simp [constPlaces]))

/-- A path that is an argument is legible as a path, and so is the one that a projection writes. -/
theorem path_argument (h : Derives .segments s segs s') (hsegs : Survives .segments segs s')
    (hplain : Part.AllEach Label.Plain (viewSegments segs)) (projected : List String)
    (hz : Continues s' z) : ∃ segs',
      (Ty.path ⟨segs, false⟩).project projected = .path ⟨segs', false⟩ ∧ Segmented segs' z := by
  have hsegs' := hsegs hplain [] z hz
  rw [project, projectSegments_nil] at hsegs'
  exact h.path_legible hsegs' hz false projected

/-- An argument that is a path starts with a name, and neither `=` nor `:` follows its segments. -/
theorem pathArg (h : Derives .segments s segs s') (hsegs : Survives .segments segs s') :
    Survives .genericArg (.ty (.path ⟨segs, false⟩)) s' := by
  intro hplain projected z hz
  obtain ⟨c, r, rfl, hc, hq⟩ := id hz
  obtain ⟨segs', heq, hsegs'⟩ := path_argument h hsegs
    (by simpa using hplain) projected
    (Separated.continues hz)
  rw [project, GenericArg.project, heq]
  exact hsegs'.arg hc

/-- An argument that does not start with a name is a type. -/
theorem tyArg (hne : s.next.kind ≠ .ident) (h : Derives .ty s a s') (ha : Survives .ty a s') :
    Survives .genericArg (.ty a) s' := by
  intro hplain projected z hz
  rw [project, GenericArg.project]
  refine Typed.arg (ha (by simpa using hplain) projected z
    (Separated.continues hz)) ?_
  rw [Ty.opening_project]
  exact h.opening_ne_ident hne

/-- A parameter with a name, behind which a colon stands. -/
theorem namedParam (hname : s.Shifts .ident Expected.afterLabel t s₁) (ha : Survives .ty a s') :
    Survives .fnArg ⟨some (String.ofList t.text), a⟩ s' := by
  intro hplain projected z hz
  exact .named (isPlainName_of_shifts hname (by simpa using hplain.1))
    (ha hplain.2 projected z (Separated.continues hz))

/-- A parameter without a name whose type is a path, behind which no colon stands. -/
theorem pathParam (h : Derives .segments s segs s') (hsegs : Survives .segments segs s') :
    Survives .fnArg ⟨none, .path ⟨segs, false⟩⟩ s' := by
  intro hplain projected z hz
  obtain ⟨c, r, rfl, hc, hq⟩ := id hz
  obtain ⟨segs', heq, hsegs'⟩ := path_argument h hsegs
    (by simpa using hplain) projected (Separated.continues hz)
  rw [project, FnArg.project, heq]
  exact hsegs'.fnArg hc

theorem tyParam (hne : s.next.kind ≠ .ident) (h : Derives .ty s a s') (ha : Survives .ty a s') :
    Survives .fnArg ⟨none, a⟩ s' := by
  intro hplain projected z hz
  refine Typed.fnArg (ha hplain.2 projected z (Separated.continues hz)) ?_
  rw [Ty.opening_project]
  exact h.opening_ne_ident hne

/-! ### Bounds -/

theorem trait {maybe : Bool} (hls : Survives .binder ls s) (hp : Survives .path p s') :
    Survives .bound (.trait p maybe ls) s' := by
  intro hplain projected z hz
  rw [project, Bound.project_trait]
  have hp' := hp (by simpa using hplain) projected z hz
  exact .trait _ (hp'.pathed _) (hls trivial projected z trivial)

theorem bound
    (hls : Survives (.commas (.lifetime Expected.afterArg) .gt Expected.binderItem
      Expected.afterBinder) ls s') : Survives .binder ls s' := by
  intro _ projected z _
  simpa [Legible, project] using hls (fun _ _ => trivial) projected [] ⟨breaks_nil, .nil⟩

theorem lifetime (h : s.Shifts .lifetime e t s') :
    Survives (.lifetime e) ⟨String.ofList t.text⟩ s' := by
  intro _ projected z _
  simpa [Legible, project] using isLifetime_of_shifts h

/-! ### Lists -/

theorem commasLast (hk : Bracketed k close e e') (hclose : s₁.Shifts close e' t s') {a : k.Value}
    (ha : Survives k a s₁) : Survives (.commas k close e e') [a] s' := by
  intro hplain projected z hz
  refine legible_cons hk ?_ (fun z' hz' => ha (hplain _ (by simp)) projected z'
    (Derives.ready_of_separated hk hz')) (legible_nil hk)
  have hq := hclose.reaches.quiet hz.2
  cases hk <;> simpa [print, Text.join, Terminal.spelling] using hq

/-- In a list in brackets a comma follows in print, or the bracket. Either ends an element. -/
theorem commasCons (hk : Bracketed k close e e') (hcomma : s₁.Shifts .comma e t s₂) {a : k.Value}
    {as : List k.Value} (h : Derives (.commas k close e e') s₂ as s') (ha : Survives k a s₁)
    (has : Survives (.commas k close e e') as s') :
    Survives (.commas k close e e') (a :: as) s' := by
  intro hplain projected z hz
  refine legible_cons hk ?_ (fun z' hz' => ha (hplain _ (by simp)) projected z'
    (Derives.ready_of_separated hk hz')) (has (fun a ha => hplain a (by simp [ha])) projected z hz)
  exact hcomma.reaches.quiet (h.quiet_front projected hz.2 hz.1)

theorem plusesLast (hk : Summed k e) (hend : s'.next.kind ≠ .plus) {a : k.Value}
    (ha : Survives k a s') : Survives (.pluses k e) [a] s' := by
  intro hplain projected z hz
  cases hk with
  | bounds =>
    exact BoundRead.single (ha (hplain _ (by simp)) projected z hz) (hz.kind_ne_plus hend)
  | lifetimes => simpa [Legible, project] using ha trivial projected z trivial

/-- In a sum `+` follows in print, or what ends the sum. -/
theorem plusesCons (hk : Summed k e) (hplus : s₁.Shifts .plus e t s₂) {a : k.Value}
    {as : List k.Value} (h : Derives (.pluses k e) s₂ as s') (ha : Survives k a s₁)
    (has : Survives (.pluses k e) as s') : Survives (.pluses k e) (a :: as) s' := by
  intro hplain projected z hz
  have has' := has (fun a ha => hplain a (by simp [ha])) projected z hz
  cases hk with
  | bounds =>
    obtain ⟨b, bs, rfl⟩ := List.exists_cons_of_ne_nil h.pluses_ne_nil
    have hq := hplus.reaches.quiet (h.quiet_front projected hz.quiet hz.ends.breaks)
    refine BoundRead.cons (ha (hplain _ (by simp)) projected _ ?_) has'
    refine .plus_front hplus.kind_next ?_
    rw [printEachBound_eq_map]
    exact hq
  | lifetimes =>
    have ha' := ha trivial projected z trivial
    simp only [Legible, project, List.map_cons, List.forall_mem_cons] at has' ha' ⊢
    exact ⟨ha', has'⟩

/-- What stands behind a token of its own, as an output behind its arrow, is read again there. -/
theorem afterSome (hk : Optional κ e k) {a : k.Value} (ha : Survives k a s') :
    Survives (.after κ e k) (some a) s' := by
  intro hplain projected z hz
  cases hk with
  | asTrait | output => exact ha (hplain _ rfl) projected z hz.1

/-- The colon ends a predicate without bounds, and what comes then starts none. -/
theorem orNone (hk : Summed k e) : Survives (.orNone k e) [] s := by
  intro _ projected z hz
  cases hk with
  | bounds =>
    refine .inl ⟨rfl, fun e hmem => ?_⟩
    have hall : ∀ κ ∈ [Terminal.eof, .comma, .semi, .unknown], κ ∉ Expected.bound := by decide
    exact hall _ (hz.kind e) hmem
  | lifetimes => simp [Legible, project]

/-- Bounds that are there are read again. Bounds that are not there are not printed. -/
theorem orSome (hk : Summed k e) {as : List k.Value} (h : Derives (.pluses k e) s as s')
    (has : Survives (.pluses k e) as s') : Survives (.orNone k e) as s' := by
  intro hplain projected z hz
  cases hk with
  | bounds =>
    refine .inr ⟨?_, has hplain projected z (Finishes.continues hz)⟩
    simpa [project] using h.pluses_ne_nil
  | lifetimes => exact has hplain projected z (Finishes.continues hz)

/-! ### Predicates -/

/-- A subject is legible in front of its bounds, with a binder or without one. -/
theorem type (hcolon : s.Shifts .colon Expected.predicateBound t s₁) {bs : List Bound}
    (h : Derives (.orNone .bound Expected.bound) s₁ bs s') (hls : Survives .binder ls s₂)
    (hopening : ls ≠ [] → a.opening ∉ [Terminal.kwFor, .kwUnsafe, .kwExtern, .kwFn])
    (ha : Survives .ty a s) (hbs : Survives (.orNone .bound Expected.bound) bs s') :
    Survives .predicate (.type a bs ls) s' := by
  intro hplain projected z hz
  simp only [All, Predicate.view, Part.all_node, Part.allEach_cons,
    Part.allEach_viewBounds] at hplain
  have hfront := Derives.continues_colon projected hcolon h hz
  rw [project, Predicate.project, projectBounds_eq_map]
  refine .type (ha hplain.2.1 projected _ ?_) ?_ (hls trivial projected z trivial)
    (hbs hplain.2.2 projected z hz) hz.head_ne
  · rw [List.isEmpty_map]
    exact hfront
  · rwa [Ty.opening_project]

/-- A predicate of a lifetime has its colon even if it has no bounds. -/
theorem lifetimePredicate {l : Lifetime} (hl : Survives (.lifetime [.colon]) l s)
    (hls : Survives (.orNone (.lifetime Expected.afterLifetime) [.lifetime]) ls s') :
    Survives .predicate (.lifetime l ls) s' := by
  intro _ projected z hz
  refine .lifetime (hl trivial projected z trivial) ?_ hz.continues.ends.breaks hz.head_ne
    fun e hmem => ?_
  · simpa [Legible, project] using hls (fun _ _ => trivial) projected z hz
  · have hall : ∀ κ ∈ [Terminal.eof, .comma, .semi, .unknown], κ ∉ [Terminal.plus, .lifetime] := by
      decide
    exact hall _ (hz.kind e) hmem

theorem predicatesLast {p : Predicate} (hp : Survives .predicate p s') :
    Survives .predicates [p] s' := by
  intro hplain projected z _
  exact .single (hp (hplain _ (by simp)) projected [] (.nil _)).listed

/-- A comma stands behind each predicate but the last. -/
theorem predicatesCons (hcomma : s₁.Shifts .comma Expected.predicate t s₂) {p : Predicate}
    {ps : List Predicate} (h : Derives .predicates s₂ ps s') (hp : Survives .predicate p s₁)
    (hps : Survives .predicates ps s') : Survives .predicates (p :: ps) s' := by
  intro hplain projected z _
  have hps' := hps (fun p hp => hplain p (by simp [hp])) projected [] rfl
  cases ps with
  -- the comma was the last token
  | nil => exact .single (hp (hplain _ (by simp)) projected [] (.nil _)).listed
  | cons p' ps =>
    have hq := hcomma.reaches.quiet (h.quiet projected)
    rw [Legible, project, List.map_cons, List.map_cons, List.map_cons,
      List.map_cons, join_cons_cons]
    refine .cons (PredicateRead.listed (hp (hplain _ (by simp)) projected _ ⟨by simp, ?_⟩)) hps'
    simpa [print, project] using hq

end Survives

namespace Derives

/-- All that is read survives. -/
theorem survives {k : Phrase} {v : k.Value} (h : Derives k s v s') : k.Survives v s' := by
  induction h with
  | path hp ih => exact .path hp ih
  | qualified _ _ has hgt hsep hsegs ihself ihas ihsegs =>
    exact .qualified has hgt hsep hsegs ihself ihas ihsegs
  | ref _ hl _ _ ih => exact .ref hl ih
  | ptr mutable _ _ _ ih => exact .ptr mutable ih
  | unit => exact fun _ _ z _ => .unit z
  | never => exact fun _ _ z _ => .never z
  | tuple _ _ hcomma helems ih ihs => exact .tuple hcomma helems ih ihs
  | paren _ _ hclose ih => exact .paren hclose ih
  | slice _ _ hclose ih => exact .slice hclose ih
  | array n _ _ hsemi hlength hclose ih => exact .array hsemi hlength hclose ih
  | implTrait _ _ ih => exact .implTrait ih
  | dynTrait _ _ ih => exact .dynTrait ih
  | fnPtr _ _ habi _ _ _ houtput ihls ihinputs ihoutput =>
    exact .fnPtr habi houtput ihls ihinputs ihoutput
  | segments _ _ ih => exact .segments ih
  | last _ hname _ hend ih => exact .last hname hend ih
  | more _ hname _ hsep hsegs ihargs ihsegs => exact .more hname hsep hsegs ihargs ihsegs
  | noArgs => exact fun _ _ z hz => Continues.ends hz |>.argsRead
  | angle _ _ ih => exact .angle ih
  | call _ _ houtput ihinputs ihoutput => exact .call houtput ihinputs ihoutput
  | turbofish _ _ _ _ _ ih => exact .angle ih
  | lifetimeArg _ ih =>
    exact fun _ projected z hz =>
      .lifetime (ih trivial projected z trivial) (Separated.continues hz).ends.breaks
  | binding hname _ _ ih => exact .binding hname ih
  | constraint hname _ _ ih => exact .constraint hname ih
  | constArg n h => exact .constArg h
  | pathArg hsegs ih => exact .pathArg hsegs ih
  | tyArg hne ha ih => exact .tyArg hne ha ih
  | namedParam hname _ _ ih => exact .namedParam hname ih
  | pathParam hsegs ih => exact .pathParam hsegs ih
  | tyParam hne ha ih => exact .tyParam hne ha ih
  | outlives _ ih =>
    exact fun _ projected z hz => .lifetime (ih trivial projected z trivial)
      (Continues.ends hz).breaks
  | trait _ _ _ ihls ihp => exact .trait ihls ihp
  | unbound => exact fun _ _ _ _ => by simp [Legible, project]
  | bound _ _ _ ih => exact .bound ih
  | lifetime h => exact .lifetime h
  | commasNil hk _ => exact fun _ _ _ _ => legible_nil hk
  | commasLast hk _ hclose ih => exact .commasLast hk hclose ih
  | commasCons hk _ hcomma has iha ihas => exact .commasCons hk hcomma has iha ihas
  | plusesLast hk _ hend ih => exact .plusesLast hk hend ih
  | plusesCons hk _ hplus has iha ihas => exact .plusesCons hk hplus has iha ihas
  | afterNone => exact fun _ _ _ hz => hz.2
  | afterSome hk _ _ ih => exact .afterSome hk ih
  | orNone hk _ => exact .orNone hk
  | orSome hk has ih => exact .orSome hk has ih
  | tyPredicate _ hcolon hbs iha ihbs =>
    have hls : Survives .binder [] (.start [] []) := fun _ _ _ _ => by simp [Legible, project]
    exact .type hcolon hbs hls (by simp) iha ihbs
  | boundPredicate _ hne ha hcolon hbs ihls iha ihbs =>
    refine .type hcolon hbs ihls (fun _ => ?_) iha ihbs
    rcases ha.opening_of_ty with hop | ⟨hfor, -⟩
    · rwa [hop]
    · simp [hfor] at hne
  | lifetimePredicate _ _ _ ihl ihls => exact .lifetimePredicate ihl ihls
  | predicatesNil => exact fun _ _ _ _ => .nil rfl
  | predicatesLast _ _ ih => exact .predicatesLast ih
  | predicatesCons _ hcomma hps ihp ihps => exact .predicatesCons hcomma hps ihp ihps

/-- A plain phrase that has been read is legible, and so is what a projection makes of it. -/
theorem legible {k : Phrase} {v : k.Value} (h : Derives k s v s') (hplain : k.All Label.Plain v)
    (projected : List String) (hz : k.Ready s' z) : k.Legible (k.project projected v) z :=
  h.survives hplain projected z hz

end Derives
end Phrase

/-! ## Whole texts -/

/-- What is read at every large depth is read at the depth that a text is read at. -/
theorem Reading.parse_eq_of_reads {α : Type} {reading : Nat → Reading α} {start e' : Expectation}
    {text z : List Char} {a : α} (hsteady : ∀ n, Grammar.Steady (Offset 0 0) 5 reading n)
    (hz : IsLayout z) (h : ∀ᶠ n in atTop, (reading n).Reads start text a e' z) :
    ∃ ts, Reading.parse reading start text = .ok ⟨a, ts⟩ := by
  obtain ⟨n, hreads, hn⟩ := (h.and (eventually_ge_atTop (depth text))).exists
  obtain ⟨taken, hrun⟩ := hreads []
  have hwhole : (Reading.whole reading n).run (.start start text) = .ok (a, ⟨taken, z, e'⟩) := by
    rw [Reading.whole, Scan.start, run_bind_of_ok hrun, Reading.finish]
    have hkind : (Scan.mk taken z e').next.kind = .eof := kind_of_layout hz e'
    rw [run_bind, run_peek_bind, hkind, if_pos rfl]
    rfl
  have halike := whole_steady (hsteady n) (depth text) text.length start none
    (by simp only [depth] at hn; omega) (by simp only [depth]; omega)
  obtain ⟨hok, -⟩ := follow (s := .start start text) (halike.mono_table fun _ _ _ _ => trivial)
    Grammar.eq_lockstep rfl rfl (by simp) (Nat.le_refl _)
  obtain ⟨b, s', -, hrun', rfl, rfl⟩ := hok a _ hwhole trivial
  exact ⟨taken.reverse, by rw [Reading.parse_eq, hrun']⟩

/-- In print, the predicates are read again up to the end of the text. -/
def Relisted (ps : List Predicate) : Prop :=
  OpenListed Grammar.predicate Expected.predicate.contains Expected.predicate
    (Text.join ", " (ps.map Predicate.print)).toList ps

theorem Source.predicates_of_relisted {ps : List Predicate} (h : Relisted ps) (file : String) :
    Source.predicates ⟨file, Text.join ", " (ps.map Predicate.print), none⟩ = .ok ps := by
  obtain ⟨e', z, hz, hreads⟩ := h [] isLayout_nil
  have hall : ∀ᶠ n in atTop, (Grammar.predicates Expected.predicate n).Reads Expected.predicate
      (Text.join ", " (ps.map Predicate.print)).toList ps e' z := by
    filter_upwards [hreads, eventually_gt_atTop ps.length] with n hn hlt
    exact hn n hlt
  obtain ⟨ts, hparse⟩ := Reading.parse_eq_of_reads (Grammar.predicates_steady (by decide)) hz hall
  rw [Source.predicates, Source.predicatesM, Source.parseM_plain, Source.chars, hparse]
  rfl

/-- The predicates of a source, and their derivation. -/
theorem Source.derives_of_predicates {src : Source} {ps : List Predicate}
    (h : src.predicates = .ok ps) :
    ∃ ts s', Reading.parse (Grammar.predicates Expected.predicate) Expected.predicate src.chars =
        .ok ⟨ps, ts⟩ ∧
      Phrase.Derives .predicates (.start Expected.predicate src.chars) ps s' ∧
      s'.next.kind = .eof ∧ s'.taken = ts.reverse := by
  rw [Source.predicates, Source.predicatesM, Source.parseM_plain] at h
  cases hparse : Reading.parse
    (Grammar.predicates Expected.predicate) Expected.predicate src.chars with
  | error s => simp [hparse] at h
  | ok p =>
    obtain rfl : p.value = ps := by simpa [hparse] using h
    rw [Reading.parse_eq] at hparse
    cases hrun : (Reading.whole (Grammar.predicates Expected.predicate) (depth src.chars)).run
        (.start Expected.predicate src.chars) with
    | error s => simp [hrun] at hparse
    | ok r =>
      obtain ⟨ps', s₁⟩ := r
      obtain rfl : ⟨ps', s₁.taken.reverse⟩ = p := by simpa [hrun] using hparse
      rw [Reading.whole] at hrun
      obtain ⟨ps'', s', hps, hrun⟩ := run_bind_eq_ok.mp hrun
      rw [Reading.finish, run_bind, run_peek_bind] at hrun
      split_ifs at hrun with heof
      · obtain ⟨rfl, rfl⟩ := of_run_pure hrun
        exact ⟨_, s', rfl, Grammar.predicates_derives hps, heof, (List.reverse_reverse _).symm⟩
      · simp [Reading.run] at hrun

/-- Predicates that have been read, printed and read again are what they were, and so are the
predicates that a projection makes of them. -/
theorem Source.predicates_reread {src : Source} {ps : List Predicate} (h : src.predicates = .ok ps)
    (hplain : ∀ p ∈ ps, p.view.All Label.Plain) : ps.map (Predicate.project []) = ps ∧
    ∀ (projected : List String) (file : String), Source.predicates
      ⟨file, Text.join ", " ((ps.map (Predicate.project projected)).map Predicate.print), none⟩ =
        .ok (ps.map (Predicate.project projected)) := by
  refine ⟨?_, fun projected file => ?_⟩
  · exact List.map_id'' Predicate.project_nil ps
  obtain ⟨-, s', -, hps, -⟩ := derives_of_predicates h
  exact predicates_of_relisted (hps.legible hplain projected rfl) file

/-- A projected name, and a trailing comma that is kept. -/
theorem Source.predicates_reread_shadowed : ∃ ps,
    Source.predicates ⟨"a.rs", "T : Fn((U,),) -> &'a T,", none⟩ = .ok ps ∧
      (∀ p ∈ ps, p.view.All Label.Plain) ∧ Source.predicates ⟨"b.rs", Text.join ", "
        ((ps.map (Predicate.project ["T"])).map Predicate.print), none⟩ =
          .ok (ps.map (Predicate.project ["T"])) := by
  have hlabels : (Source.predicates ⟨"a.rs", "T : Fn((U,),) -> &'a T,", none⟩).toOption.map
      (List.flatMap fun p => p.view.labels) = some [.tyPredicate [], .pathTy,
        .path false, .segment "T", .traitBound false [], .path false, .segment "Fn", .parenArgs,
        .tupleTy, .pathTy, .path false, .segment "U", .refTy (some ⟨"'a"⟩) false, .pathTy,
        .path false, .segment "T"] := by
    decide +kernel
  obtain ⟨ps, hps, hlabels⟩ := exists_of_map hlabels
  have hnames : ∀ name ∈ ["T", "Fn", "U", "T"], ∀ κ ∈ Terminal.keywords, κ.spelling ≠
      name.toList := by
    decide +kernel
  have hall : ∀ l ∈ ps.flatMap fun p => p.view.labels, l.Plain := by
    rw [hlabels]
    simpa [Label.Plain] using hnames
  have hplain : ∀ p ∈ ps, p.view.All Label.Plain :=
    fun p hp l hl => hall l (List.mem_flatMap.mpr ⟨p, hp, hl⟩)
  exact ⟨ps, hps, hplain, (Source.predicates_reread hps hplain).2 ["T"] "b.rs"⟩

end ShadowImpl
