import ShadowImpl.Proofs.Derivation
import ShadowImpl.Proofs.PrintedTypes
import ShadowImpl.Proofs.Replay
import ShadowImpl.Proofs.Scopes

/-!
# Printed phrases

What a phrase comes to can be projected and printed. The printed form closes nothing that stays
open in the text from which the phrase was read, for what could close something in it was
copied from there.
-/

namespace ShadowImpl

open Reading

variable {s s' : Scan} {e : Expectation} {κ : Terminal} {t : Token} {w y z : List Char}

/-! ## Projecting lists -/

/-- Types in a row are projected one by one. -/
theorem projectTys_eq_map (projected : List String) (ts : List Ty) :
    projectTys projected ts = ts.map (Ty.project projected) := by
  induction ts with
  | nil => rw [projectTys, List.map_nil]
  | cons t ts ih => rw [projectTys, ih, List.map_cons]

theorem projectGenericArgs_eq_map (projected : List String) (args : List GenericArg) :
    projectGenericArgs projected args = args.map (GenericArg.project projected) := by
  induction args with
  | nil => rw [projectGenericArgs, List.map_nil]
  | cons a args ih => rw [projectGenericArgs, ih, List.map_cons]

theorem projectBounds_eq_map (projected : List String) (bs : List Bound) :
    projectBounds projected bs = bs.map (Bound.project projected) := by
  induction bs with
  | nil => rw [projectBounds, List.map_nil]
  | cons b bs ih => rw [projectBounds, ih, List.map_cons]

/-- Projects the arguments of a path. -/
def Path.project (projected : List String) (p : Path) : Path :=
  ⟨projectSegments projected p.segments, p.rooted⟩

/-- Projecting nothing leaves a path as it is. -/
@[simp] theorem Path.project_nil (p : Path) : p.project [] = p := by
  cases p
  simp [Path.project]

/-- Projects the type of a parameter. -/
def FnArg.project (projected : List String) (a : FnArg) : FnArg :=
  ⟨a.name, a.ty.project projected⟩

theorem projectFnArgs_eq_map (projected : List String) (args : List FnArg) :
    projectFnArgs projected args = args.map (FnArg.project projected) := by
  induction args with
  | nil => rw [projectFnArgs, List.map_nil]
  | cons a args ih =>
    obtain ⟨name, t⟩ := a
    rw [projectFnArgs, ih, List.map_cons]
    rfl

/-- Of the bound by a trait the path is projected. -/
theorem Bound.project_trait (projected : List String) (p : Path) (maybe : Bool)
    (ls : List Lifetime) : (Bound.trait p maybe ls).project projected =
    .trait (p.project projected) maybe ls := by
  cases p
  rw [Bound.project]
  rfl

/-! ## Projecting nothing -/

/-- Projecting nothing leaves a type as it is, since no root position then has a shadow. -/
@[simp] theorem Ty.project_nil (t : Ty) : t.project [] = t := by
  apply Ty.view_inj
  rw [← Ty.replace_view [] (a := []) rfl, Part.replace_eq_self Part.shadow?_nil]

@[simp] theorem PathArgs.project_nil (args : PathArgs) : args.project [] = args := by
  apply PathArgs.view_inj
  rw [← PathArgs.replace_view [] (a := []) rfl, Part.replace_eq_self Part.shadow?_nil]

@[simp] theorem GenericArg.project_nil (arg : GenericArg) : arg.project [] = arg := by
  apply GenericArg.view_inj
  rw [← GenericArg.replace_view [] (a := []) rfl, Part.replace_eq_self Part.shadow?_nil]

@[simp] theorem Bound.project_nil (bound : Bound) : bound.project [] = bound := by
  apply Bound.view_inj
  rw [← Bound.replace_view [] (a := []) rfl, Part.replace_eq_self Part.shadow?_nil]

@[simp] theorem FnArg.project_nil (a : FnArg) : a.project [] = a := by
  cases a
  simp [FnArg.project]

/-! ## Printing and projecting -/

namespace Phrase

/-- A phrase in print. -/
def print : (k : Phrase) → k.Value → String
  | ty, t => t.print
  | path, p => p.print
  | segments, segs => Text.join "::" (printSegments segs)
  | args, none => ""
  | args, some a => a.print
  | genericArg, a => a.print
  | fnArg, a => a.print
  | bound, b => b.print
  | binder, ls => printBinder ls
  | lifetime _, l => l.name
  | commas k close _ _, as => Text.join ", " (as.map k.print) ++ String.ofList close.spelling
  | pluses k _, as => Text.join " + " (as.map k.print)
  | after _ _ _, none => ""
  | after κ _ k, some a => " " ++ String.ofList κ.spelling ++ " " ++ k.print a
  | orNone k _, as => Text.join " + " (as.map k.print)
  | predicate, p => p.print
  | predicates, ps => Text.join ", " (ps.map Predicate.print)

/-- Projects the root positions of a phrase. -/
def project (projected : List String) : (k : Phrase) → k.Value → k.Value
  | ty, t => t.project projected
  | path, p => p.project projected
  | segments, segs => projectSegments projected segs
  | args, a => projectArgs projected a
  | genericArg, a => a.project projected
  | fnArg, a => a.project projected
  | bound, b => b.project projected
  | binder, ls => ls
  | lifetime _, l => l
  | commas k _ _ _, as => as.map (k.project projected)
  | pluses k _, as => as.map (k.project projected)
  | after _ _ k, a => a.map (k.project projected)
  | orNone k _, as => as.map (k.project projected)
  | predicate, p => p.project projected
  | predicates, ps => ps.map (Predicate.project projected)

/-- Projecting nothing leaves any phrase as it is. -/
@[simp] theorem project_nil {k : Phrase} (v : k.Value) : k.project [] v = v := by
  induction k with
  | ty | path | segments | genericArg | fnArg | bound | predicate | binder | lifetime =>
      simp [project]
  | args => cases v <;> simp [project, projectArgs]
  | commas k _ _ _ ih | pluses k _ ih | orNone k _ ih =>
    rw [project, List.map_congr_left fun a _ => ih a, List.map_id']
  | after κ e k ih => cases v <;> simp [project, ih]
  | predicates => exact List.map_id'' Predicate.project_nil v

end Phrase

/-! ## Quiet texts -/

namespace Quiet

attribute [simp] nil

/-- A character that is in no mark. -/
@[simp] def isMute (c : Char) : Bool :=
  c != '*' && c != '"' && c != '/' && c != '#'

/-- What is quiet as a whole is quiet in its parts. -/
theorem of_append (h : Quiet y (w ++ z)) : Quiet y w ∧ Quiet y z :=
  ⟨fun m hm => h m (hm.trans (List.prefix_append w z).isInfix),
    fun m hm => h m (hm.trans (List.suffix_append w z).isInfix)⟩

/-- A character that is in no mark parts a text: no mark goes over it. -/
@[simp] theorem append_cons_iff {c : Char} (hc : isMute c = true) :
    Quiet y (w ++ c :: z) ↔ Quiet y w ∧ Quiet y z := by
  simp only [isMute, Bool.and_eq_true, bne_iff_ne] at hc
  obtain ⟨⟨⟨hstar, hquote⟩, hslash⟩, hhash⟩ := hc
  constructor
  · exact fun h => ⟨h.of_append.1, (of_append (w := [c]) h.of_append.2).2⟩
  · rintro ⟨hw, hz⟩ m hm
    refine (Mark.infix_append (by simp [hslash, hhash]) hm).elim (hw m) fun hm => ?_
    exact text (w := [c]) (by simp [isPlainText, hstar, hquote]) hz m hm

@[simp] theorem cons_iff {c : Char} (hc : isMute c = true) : Quiet y (c :: z) ↔ Quiet y z := by
  have := append_cons_iff (y := y) (w := []) (z := z) hc
  simpa [nil] using this

/-- Only a slash makes a mark of a star. -/
@[simp] theorem star_iff {c : Char} (hc : c ≠ '/') :
    Quiet y ('*' :: c :: z) ↔ Quiet y (c :: z) := by
  refine ⟨fun h => (of_append (w := ['*']) h).2, fun h m hm => ?_⟩
  rcases List.infix_cons_iff.mp hm with hp | hi
  · exfalso
    cases m <;> simp [Mark.text, List.cons_prefix_cons, Ne.symm hc] at hp
  · exact h m hi

/-- A list is quiet if its elements are, when what stands between them starts with a character that
is in no mark. -/
theorem join_iff {sep : String} {c : Char} {r : List Char} (hsep : sep.toList = c :: r)
    (hc : isMute c = true) (hr : ∀ z, Quiet y (r ++ z) ↔ Quiet y z) (l : List String) :
    Quiet y (Text.join sep l).toList ↔ ∀ w ∈ l, Quiet y w.toList := by
  induction l with
  | nil => simp [Text.join, nil]
  | cons w l ih =>
    cases l with
    | nil => simp [Text.join]
    | cons w' l =>
      rw [join_cons_cons, hsep, List.cons_append, append_cons_iff hc, hr, ih]
      simp

@[simp] theorem commas_iff (l : List String) :
    Quiet y (Text.join ", " l).toList ↔ ∀ w ∈ l, Quiet y w.toList :=
  join_iff (c := ',') (r := [' ']) rfl rfl (by simp) l

@[simp] theorem pluses_iff (l : List String) :
    Quiet y (Text.join " + " l).toList ↔ ∀ w ∈ l, Quiet y w.toList :=
  join_iff (c := ' ') (r := ['+', ' ']) rfl rfl (by simp) l

@[simp] theorem segments_iff (l : List String) :
    Quiet y (Text.join "::" l).toList ↔ ∀ w ∈ l, Quiet y w.toList :=
  join_iff (c := ':') (r := [':']) rfl rfl (by simp) l

end Quiet

/-! ## Order -/

namespace Scan

theorem Reaches.trans {s₁ : Scan} (h : s.Reaches s₁) (h' : s₁.Reaches s') : s.Reaches s' := by
  induction h with
  | refl => exact h'
  | step hnext _ ih => exact .step hnext (ih h')

/-- What is left of the text gets shorter from its front. -/
theorem Reaches.rest_suffix (h : s.Reaches s') : s'.rest <:+ s.rest := by
  induction h with
  | refl => exact List.suffix_rfl
  | step hnext _ ih => exact ih.trans ⟨_, (Next.of_eq_token hnext).1.symm⟩

/-- On the way from one scan to another tokens are taken. -/
theorem Reaches.takes (h : s.Reaches s') : ∃ ts, s.Takes ts s' := by
  induction h with
  | refl => exact ⟨[], .refl _⟩
  | step hnext _ ih =>
    obtain ⟨ts, hts⟩ := ih
    exact ⟨_, (Takes.token hnext _).trans hts⟩

theorem Shifts.reaches (h : s.Shifts κ e t s') : s.Reaches s' := by
  obtain ⟨taken, rest, expected⟩ := s'
  obtain ⟨hnext, -, rfl, -⟩ := h
  exact .step hnext (.refl _)

theorem Flag.reaches {b : Bool} (h : s.Flag κ e b s') : s.Reaches s' := by
  cases h with
  | absent => exact .refl s
  | present h => exact h.reaches

theorem RefLifetime.reaches {l : Option Lifetime} (h : s.RefLifetime l s') : s.Reaches s' := by
  cases h with
  | absent => exact .refl s
  | present h => exact h.reaches

theorem Abi.reaches {abi : Option String} (h : s.Abi abi s') : s.Reaches s' := by
  cases h with
  | absent => exact .refl s
  | bare h => exact h.reaches
  | named h hname => exact h.reaches.trans hname.reaches

/-- A reading takes tokens, and nothing else, to where it ends. -/
theorem reaches_of_run {α : Type} {r : Reading α} {a : α} (h : r.run s = .ok (a, s')) :
    s.Reaches s' :=
  (@seen_of_run _ (·.Reaches s') (fun hnext hs => .step hnext hs) r s).1 a s' h (.refl s')

/-- What closes nothing in the end of a text closes nothing in all of it. -/
theorem Reaches.quiet (h : s.Reaches s') (hw : Quiet s'.rest w) : Quiet s.rest w :=
  hw.behind h.rest_suffix

end Scan

namespace Phrase.Derives

/-- A phrase stands between two scans of one text, of which the latter comes behind the former. -/
theorem reaches {k : Phrase} {v : k.Value} (h : Derives k s v s') : s.Reaches s' := by
  induction h with
  | _ => grind only [Scan.Reaches.refl, → Scan.Reaches.trans, → Scan.Shifts.reaches, →
      Scan.Flag.reaches, → Scan.RefLifetime.reaches, → Scan.Abi.reaches, → Scan.reaches_of_run]

end Phrase.Derives

/-! ## What is printed is quiet -/

/-- A tuple in print. One element has a comma behind it. -/
theorem Ty.print_tuple_cons (a : Ty) (as : List Ty) : (Ty.tuple (a :: as)).print.toList =
    '(' :: (a.print.toList ++ ',' :: ((if as = [] then [] else [' ']) ++
      ((Text.join ", " (as.map Ty.print)).toList ++ [')']))) := by
  cases as with
  | nil => simp [Ty.print, Text.join]
  | cons a' as => simp [Ty.print, printTys, printTys_eq_map, Text.join]

/-- A path in print, its segments behind the colons that root it. -/
theorem Path.print_toList (segs : List Segment) (rooted : Bool) :
    (Path.print ⟨segs, rooted⟩).toList = (if rooted then [':', ':'] else []) ++
      segmentChars segs := by
  cases rooted <;> simp [Path.print, segmentChars]

theorem Ty.print_shadowed_toList (ident : String) :
    (Ty.shadowed ident).print.toList = ident.toList ++ "::Shadowed".toList := by
  simp [Ty.shadowed, Ty.print, Path.print, printSegments, Segment.print, Text.join]

/-- A token that is taken as a name is one. -/
theorem isName_of_shifts (h : s.Shifts .ident e t s') : IsName t.text :=
  isName_of_token h.next h.kind

/-- A token that is taken as a lifetime is one. -/
theorem isLifetime_of_shifts (h : s.Shifts .lifetime e t s') : IsLifetime t.text := by
  have hfirst := first_of_token h.next (by simp [h.kind, Terminal.keywords])
  rw [h.kind] at hfirst
  exact Lexeme.recognise_cuts (.terminal .lifetime) (Lexeme.first_eq_some hfirst).2 (Nat.le_refl _)

/-- The text of a token is a piece of the text in front of it. -/
theorem Scan.Shifts.infix (h : s.Shifts κ e t s') : t.text <:+: s.rest := by
  refine ⟨t.gap, s'.rest, ?_⟩
  rw [(Next.of_eq_token h.next).1, List.append_assoc]

namespace Quiet

/-- A piece of a text closes nothing that stays open in the text. -/
theorem of_piece (h : w <:+: y) : Quiet y w :=
  fun _ hm => hm.trans h

/-- A segment is quiet if its name and its arguments are. -/
theorem segment {name : String} {args : Option PathArgs} (hname : Quiet y name.toList)
    (hargs : Quiet y (Phrase.print .args args).toList) :
    Quiet y (Segment.print ⟨name, args⟩).toList := by
  match args with
  | none => simpa [Segment.print] using hname
  | some (.angle as true) | some (.angle as false) | some (.paren inputs output) =>
    simp_all [Segment.print, Phrase.print, PathArgs.print]

end Quiet

namespace Phrase

/-- An output is printed behind its arrow. -/
theorem print_output (output : Option Ty) :
    (after .arrow e ty).print output = printOutput output := by
  cases output <;> rfl

theorem project_output (projected : List String) (output : Option Ty) :
    (after κ e ty).project projected output = projectOutput projected output := by
  cases output <;> rfl

/-- A list in brackets is quiet only if its elements are. -/
theorem quiet_of_commas {k : Phrase} {e' : Expectation} {as : List k.Value}
    (h : Quiet y ((commas k κ e e').print as).toList) : ∀ a ∈ as, Quiet y (k.print a).toList := by
  rw [print, String.toList_append] at h
  simpa using h.of_append.1

end Phrase

theorem Scan.Shifts.quiet (h : s.Shifts κ e t s') : Quiet s.rest (String.ofList t.text).toList := by
  rw [String.toList_ofList]
  exact .of_piece h.infix

/-- The name of an ABI was copied from the text. -/
theorem Scan.Abi.quiet {abi : Option String} (h : s.Abi abi s') :
    ∀ a ∈ abi, Quiet s.rest a.toList := by
  cases h with
  | absent => simp
  | bare => simp [Quiet.nil]
  | named h hname => simpa using h.reaches.quiet hname.quiet

/-- Trimming leaves a piece of a text. -/
theorem trim_piece (w : List Char) : Text.trim w <:+: w := by
  obtain ⟨b, hb, -⟩ := Text.exists_trimEnd (w.dropWhile Text.isBlank)
  have : Text.trim w <+: w.dropWhile Text.isBlank := ⟨b, hb.symm⟩
  exact this.isInfix.trans (List.dropWhile_suffix _).isInfix

namespace Phrase

/-- A type that is a path stays as it is or gets one more segment. -/
theorem quiet_path {p : Path} (h : Quiet y p.print.toList) (projected : List String) :
    Quiet y ((Ty.path p).project projected).print.toList := by
  rw [Ty.project]
  split
  · rename_i ident hident
    split
    · obtain rfl : p = .ofIdent ident := by
        unfold Path.ident? at hident
        split at hident <;> simp_all [Path.ofIdent]
      rw [Ty.print_shadowed_toList]
      simp only [Path.ofIdent, Path.print, printSegments, Segment.print, Text.join] at h
      simpa [Quiet.append_cons_iff, Quiet.cons_iff, Quiet.isMute, Quiet.nil] using h
    · simpa [Ty.print] using h
  · simpa [Ty.print] using h

/-- In print, a phrase closes nothing that stays open in `y`, whatever is projected in it. -/
def Silent (y : List Char) (k : Phrase) (v : k.Value) : Prop :=
  ∀ projected, Quiet y (k.print (k.project projected v)).toList

namespace Silent

attribute [local simp] print project Ty.project Ty.print

variable {k : Phrase} {e' e'' : Expectation} {close : Terminal} {a : Ty} {bs : List Bound}
  {ls : List Lifetime} {output : Option Ty} {name : String} {segs : List Segment}
  {as : List GenericArg}

/-- What is copied from the text behind a scan is copied from all of it. -/
theorem behind {v : k.Value} (h : Silent s'.rest k v) (hs : s.Reaches s') : Silent s.rest k v :=
  fun projected => hs.quiet (h projected)

/-! ### Types -/

theorem path {p : Path} (h : Silent y .path p) : Silent y .ty (.path p) :=
  fun projected => quiet_path (by simpa [Phrase.print] using h []) projected

/-- The paths of a qualified type are printed as they are read. -/
theorem qualified {asTrait : Option Path} (ha : Silent y .ty a)
    (has : Silent y (.after .kwAs e .path) asTrait) (hsegs : Silent y .segments segs) :
    Silent y .ty (.qualified a asTrait ⟨segs, false⟩) := by
  intro projected
  have ha' := ha projected
  have has' := has []
  have hsegs' := hsegs []
  cases asTrait with
  | none => simp_all [Path.print]
  | some p => simp_all [Path.print, Terminal.spelling]

theorem ref {l : Option Lifetime} (hl : ∀ l' ∈ l, Quiet y l'.name.toList) (mutable : Bool)
    (ha : Silent y .ty a) : Silent y .ty (.ref l mutable a) := by
  intro projected
  have ha' := ha projected
  cases l <;> cases mutable <;> simp_all

theorem ptr (mutable : Bool) (ha : Silent y .ty a) : Silent y .ty (.ptr mutable a) := by
  intro projected
  have ha' := ha projected
  cases mutable <;> simp_all

theorem tuple {elems : List Ty} (ha : Silent y .ty a)
    (hs : Silent y (.commas .ty .rpar e e') elems) : Silent y .ty (.tuple (a :: elems)) := by
  intro projected
  have ha' := ha projected
  have hs' := hs projected
  simp only [print, project] at ha' hs'
  simp only [print, project, Ty.project, projectTys, projectTys_eq_map, Ty.print_tuple_cons]
  cases elems <;> simp_all [Text.join, Quiet.nil, Terminal.spelling]

theorem paren (ha : Silent y .ty a) : Silent y .ty (.paren a) := by
  intro projected
  have ha' := ha projected
  simp_all [Quiet.nil]

theorem slice (ha : Silent y .ty a) : Silent y .ty (.slice a) := by
  intro projected
  have ha' := ha projected
  simp_all [Quiet.nil]

/-- The length of an array is printed as it was written. -/
theorem array {length : String} (ha : Silent y .ty a) (hlength : Quiet y length.toList) :
    Silent y .ty (.array a length) := by
  intro projected
  have ha' := ha projected
  simp_all [Quiet.nil]

theorem implTrait (hbs : Silent y (.pluses .bound e) bs) : Silent y .ty (.implTrait bs) := by
  intro projected
  have hbs' := hbs projected
  simp_all [printEachBound_eq_map, projectBounds_eq_map]

theorem dynTrait (hbs : Silent y (.pluses .bound e) bs) : Silent y .ty (.dynTrait bs) := by
  intro projected
  have hbs' := hbs projected
  simp_all [printEachBound_eq_map, projectBounds_eq_map]

/-- An ABI without a name and one whose name is empty are printed alike. -/
theorem fnPtr {abi : Option String} {inputs : List FnArg} (isUnsafe : Bool)
    (hls : Silent y .binder ls) (habi : ∀ n ∈ abi, Quiet y n.toList)
    (hinputs : Silent y (.commas .fnArg .rpar e e') inputs)
    (houtput : Silent y (.after .arrow Expected.type .ty) output) :
    Silent y .ty (.fnPtr ls isUnsafe abi inputs output) := by
  intro projected
  have hls' := hls projected
  have hinputs' := quiet_of_commas (hinputs projected)
  have houtput' := houtput projected
  rw [project_output, print_output] at houtput'
  simp only [print, project, List.forall_mem_map] at hls' hinputs'
  rcases abi with - | name
  · cases isUnsafe <;>
      simp_all [printFnArgs_eq_map, projectFnArgs_eq_map]
  · by_cases hname : name = "" <;> cases isUnsafe <;>
      simp_all [printFnArgs_eq_map, projectFnArgs_eq_map]

/-! ### Paths -/

theorem segments (rooted : Bool) (hsegs : Silent y .segments segs) :
    Silent y .path ⟨segs, rooted⟩ := by
  intro projected
  have hsegs' := hsegs projected
  cases rooted <;> simp_all [Path.project, Path.print_toList, segmentChars]

theorem last {args : Option PathArgs} (hname : Quiet y name.toList) (hargs : Silent y .args args) :
    Silent y .segments [⟨name, args⟩] := by
  intro projected
  simp only [project, projectSegments, print, printSegments, Text.join]
  exact hname.segment (hargs projected)

theorem more {args : Option PathArgs} (hname : Quiet y name.toList) (hargs : Silent y .args args)
    (hsegs : Silent y .segments segs) : Silent y .segments (⟨name, args⟩ :: segs) := by
  intro projected
  have hsegs' := hsegs projected
  simp only [project, print, Quiet.segments_iff] at hsegs'
  simp only [project, projectSegments, print, printSegments, Quiet.segments_iff,
    List.forall_mem_cons]
  exact ⟨hname.segment (hargs projected), hsegs'⟩

theorem angle (turbofish : Bool) (has : Silent y (.commas .genericArg .gt e e') as) :
    Silent y .args (some (.angle as turbofish)) := by
  intro projected
  have has' := quiet_of_commas (has projected)
  cases turbofish <;>
    simp_all [projectArgs, PathArgs.project, PathArgs.print, printGenericArgs_eq_map,
      projectGenericArgs_eq_map]

theorem call {inputs : List Ty} (hinputs : Silent y (.commas .ty .rpar e e') inputs)
    (houtput : Silent y (.after .arrow Expected.type .ty) output) :
    Silent y .args (some (.paren inputs output)) := by
  intro projected
  have hinputs' := quiet_of_commas (hinputs projected)
  have houtput' := houtput projected
  rw [project_output, print_output] at houtput'
  simp_all [projectArgs, PathArgs.project, PathArgs.print, printTys_eq_map, projectTys_eq_map]

/-! ### Arguments and bounds -/

theorem binding (hname : Quiet y name.toList) (ha : Silent y .ty a) :
    Silent y .genericArg (.binding name a) := by
  intro projected
  have ha' := ha projected
  simp_all [GenericArg.project, GenericArg.print]

theorem constraint (hname : Quiet y name.toList) (hbs : Silent y (.pluses .bound e) bs) :
    Silent y .genericArg (.constraint name bs) := by
  intro projected
  have hbs' := hbs projected
  simp_all [GenericArg.project, GenericArg.print, printEachBound_eq_map, projectBounds_eq_map]

theorem pathArg (hsegs : Silent y .segments segs) :
    Silent y .genericArg (.ty (.path ⟨segs, false⟩)) := by
  refine quiet_path (p := ⟨_, false⟩) ?_
  simpa [Path.print] using hsegs []

theorem pathParam (hsegs : Silent y .segments segs) :
    Silent y .fnArg ⟨none, .path ⟨segs, false⟩⟩ := by
  refine quiet_path (p := ⟨_, false⟩) ?_
  simpa [Path.print] using hsegs []

/-- A name that is empty is not printed. -/
theorem namedParam (hname : Quiet y name.toList) (ha : Silent y .ty a) :
    Silent y .fnArg ⟨some name, a⟩ := by
  intro projected
  have ha' := ha projected
  by_cases hempty : name = "" <;> simp_all [FnArg.project, FnArg.print]

/-- A binder without lifetimes is not printed. -/
theorem trait {p : Path} (maybe : Bool) (hls : Silent y .binder ls) (hp : Silent y .path p) :
    Silent y .bound (.trait p maybe ls) := by
  intro projected
  have hls' := hls projected
  have hp' := hp projected
  by_cases hne : ls = [] <;> cases maybe <;>
    simp_all [Bound.project_trait, Bound.print, printBinder]

theorem bound (hls : Silent y (.commas (.lifetime e) .gt e' e'') ls) : Silent y .binder ls := by
  intro projected
  have hls' := quiet_of_commas (hls projected)
  by_cases hne : ls = [] <;> simp_all [printBinder]

/-! ### Lists -/

theorem commasNil (hk : Bracketed k close e e') : Silent y (.commas k close e e') [] := by
  intro projected
  cases hk <;> simp [Text.join, Terminal.spelling]

/-- The bracket that closes a list is printed behind its last element. -/
theorem commasLast (hk : Bracketed k close e e') {a : k.Value} (ha : Silent y k a) :
    Silent y (.commas k close e e') [a] := by
  intro projected
  have ha' := ha projected
  cases hk <;> simp_all [Text.join, Terminal.spelling]

theorem commasCons (hk : Bracketed k close e e') {a : k.Value} {as : List k.Value}
    (ha : Silent y k a) (has : Silent y (.commas k close e e') as) :
    Silent y (.commas k close e e') (a :: as) := by
  intro projected
  have ha' := ha projected
  have has' := has projected
  cases hk <;> simp_all [Terminal.spelling]

theorem plusesLast {a : k.Value} (ha : Silent y k a) : Silent y (.pluses k e) [a] := by
  intro projected
  simpa [Text.join] using ha projected

/-- A summand is printed in front of the others with a plus sign between them. -/
theorem plusesCons {a : k.Value} {as : List k.Value} (ha : Silent y k a)
    (has : Silent y (.pluses k e) as) : Silent y (.pluses k e) (a :: as) := by
  intro projected
  have ha' := ha projected
  have has' := has projected
  simp_all

theorem afterSome {κ : Terminal} (hk : Optional κ e k) {a : k.Value} (ha : Silent y k a) :
    Silent y (.after κ e k) (some a) := by
  intro projected
  have ha' := ha projected
  cases hk <;> simp_all [Terminal.spelling]

/-! ### Predicates -/

/-- A subject stands in print between its binder and its bounds. -/
theorem type (hls : Silent y .binder ls) (ha : Silent y .ty a)
    (hbs : Silent y (.orNone .bound e) bs) : Silent y .predicate (.type a bs ls) := by
  intro projected
  have hls' := hls projected
  have ha' := ha projected
  have hbs' := hbs projected
  by_cases hls : ls = [] <;> cases bs <;>
    simp_all [Predicate.project, Predicate.print, printBounded, printBinder, printBounds,
      projectBounds_eq_map]

/-- The bounds of a lifetime are lifetimes. -/
theorem lifetimePredicate {l : Lifetime} (hl : Silent y (.lifetime e) l)
    (hls : Silent y (.orNone (.lifetime e') e'') ls) : Silent y .predicate (.lifetime l ls) := by
  intro projected
  have hl' := hl projected
  have hls' := hls projected
  cases ls <;>
    simp_all [Predicate.project, Predicate.print, printBounded, printLifetimes]

theorem predicatesLast {p : Predicate} (hp : Silent y .predicate p) : Silent y .predicates [p] := by
  intro projected
  simpa [Text.join] using hp projected

theorem predicatesCons {p : Predicate} {ps : List Predicate} (hp : Silent y .predicate p)
    (hps : Silent y .predicates ps) : Silent y .predicates (p :: ps) := by
  intro projected
  have hp' := hp projected
  have hps' := hps projected
  simp_all

end Silent

namespace Derives

/-- What is read is silent where it was read. -/
theorem silent {k : Phrase} {v : k.Value} (h : Derives k s v s') : Silent s.rest k v := by
  induction h with
  | path _ ih => exact .path ih
  | qualified hlt hself has hgt hsep _ ihself ihas ihsegs =>
    have hto := hlt.reaches.trans hself.reaches
    have hto' := hto.trans (has.reaches.trans (hgt.reaches.trans hsep.reaches))
    exact .qualified (ihself.behind hlt.reaches) (ihas.behind hto) (ihsegs.behind hto')
  | ref hamp hl hmut _ ih =>
    refine .ref ?_ _ (ih.behind (hamp.reaches.trans (hl.reaches.trans hmut.reaches)))
    cases hl with
    | absent => simp
    | present hl => simpa using hamp.reaches.quiet (.of_piece hl.infix)
  | ptr mutable hstar hkind _ ih =>
    exact .ptr mutable (ih.behind (hstar.reaches.trans hkind.reaches))
  | unit | never =>
    intro projected
    simp [print, project, Ty.project, Ty.print, projectTys, printTys, Text.join, Quiet.nil]
  | tuple hopen helem hcomma _ ih ihs =>
    exact .tuple (ih.behind hopen.reaches)
      (ihs.behind (hopen.reaches.trans (helem.reaches.trans hcomma.reaches)))
  | paren hopen _ _ ih => exact .paren (ih.behind hopen.reaches)
  | slice hopen _ _ ih => exact .slice (ih.behind hopen.reaches)
  | array n hopen helem hsemi hlength hclose ih =>
    have htext := (Grammar.length_again hsemi.expected hlength hclose.next hclose.kind).2.1
    refine .array (ih.behind hopen.reaches) ?_
    rw [String.toList_ofList]
    exact (hopen.reaches.trans (helem.reaches.trans hsemi.reaches)).quiet
      (Quiet.of_piece ((trim_piece _).trans htext))
  | implTrait hkw _ ih => exact .implTrait (ih.behind hkw.reaches)
  | dynTrait hkw _ ih => exact .dynTrait (ih.behind hkw.reaches)
  | fnPtr hls hsafety habi hfn hopen hinputs _ ihls ihinputs ihoutput =>
    have hto := hls.reaches.trans hsafety.reaches
    have hto' := hto.trans (habi.reaches.trans (hfn.reaches.trans hopen.reaches))
    exact .fnPtr _ ihls (fun a ha => hto.quiet (habi.quiet a ha)) (ihinputs.behind hto')
      (ihoutput.behind (hto'.trans hinputs.reaches))
  | segments hrooted _ ih => exact .segments _ (ih.behind hrooted.reaches)
  | last _ hname _ _ ih => exact .last hname.quiet (ih.behind hname.reaches)
  | more _ hname hargs hsep _ ihargs ihsegs =>
    exact .more hname.quiet (ihargs.behind hname.reaches)
      (ihsegs.behind (hname.reaches.trans (hargs.reaches.trans hsep.reaches)))
  | noArgs | unbound | afterNone | orNone | predicatesNil =>
    intro projected
    simp [print, project, projectArgs, printBinder, Text.join, Quiet.nil]
  | angle hopen _ ih => exact .angle _ (ih.behind hopen.reaches)
  | call hopen hinputs _ ihinputs ihoutput =>
    exact .call (ihinputs.behind hopen.reaches)
      (ihoutput.behind (hopen.reaches.trans hinputs.reaches))
  -- of two argument lists the latter one is printed
  | turbofish hargs hsep hopen _ _ ih =>
    exact .angle _ (ih.behind (hargs.reaches.trans (hsep.reaches.trans hopen.reaches)))
  | lifetimeArg _ ih | outlives _ ih =>
    intro projected
    simpa [print, project, GenericArg.project, GenericArg.print, Bound.project, Bound.print]
      using ih projected
  | binding hname heq _ ih =>
    exact .binding hname.quiet (ih.behind (hname.reaches.trans heq.reaches))
  | constraint hname hcolon _ ih =>
    exact .constraint hname.quiet (ih.behind (hname.reaches.trans hcolon.reaches))
  | constArg n h => exact fun _ => .of_piece (Grammar.constText_again h).1
  | pathArg _ ih => exact .pathArg ih
  | pathParam _ ih => exact .pathParam ih
  | tyArg _ _ ih =>
    intro projected
    simpa [print, project, GenericArg.project, GenericArg.print] using ih projected
  | tyParam _ _ ih =>
    intro projected
    simpa [print, project, FnArg.project, FnArg.print] using ih projected
  | namedParam hname hcolon _ ih =>
    exact .namedParam hname.quiet (ih.behind (hname.reaches.trans hcolon.reaches))
  | trait hmaybe hls _ ihls ihp =>
    exact .trait _ (ihls.behind hmaybe.reaches) (ihp.behind (hmaybe.reaches.trans hls.reaches))
  | bound hfor hopen _ ih => exact .bound (ih.behind (hfor.reaches.trans hopen.reaches))
  | lifetime h => exact fun _ => h.quiet
  | commasNil hk _ => exact .commasNil hk
  | commasLast hk _ _ ih => exact .commasLast hk ih
  | commasCons hk ha hcomma _ iha ihas =>
    exact .commasCons hk iha (ihas.behind (ha.reaches.trans hcomma.reaches))
  | plusesLast _ _ _ ih => exact .plusesLast ih
  | plusesCons _ ha hplus _ iha ihas =>
    exact .plusesCons iha (ihas.behind (ha.reaches.trans hplus.reaches))
  | afterSome hk h _ ih => exact .afterSome hk (ih.behind h.reaches)
  | orSome _ _ ih => exact ih
  | tyPredicate ha hcolon _ iha ihbs =>
    exact .type (fun _ => by simp [print, project, printBinder]) iha
      (ihbs.behind (ha.reaches.trans hcolon.reaches))
  | boundPredicate hls _ ha hcolon _ ihls iha ihbs =>
    exact .type ihls (iha.behind hls.reaches)
      (ihbs.behind (hls.reaches.trans (ha.reaches.trans hcolon.reaches)))
  | lifetimePredicate hl hcolon _ ihl ihls =>
    exact .lifetimePredicate ihl (ihls.behind (hl.reaches.trans hcolon.reaches))
  | predicatesLast _ _ ih => exact .predicatesLast ih
  | predicatesCons hp hcomma _ ihp ihps =>
    exact .predicatesCons ihp (ihps.behind (hp.reaches.trans hcomma.reaches))

/-- What a phrase comes to closes nothing in print that stays open where it was read. -/
theorem quiet {k : Phrase} {v : k.Value} (h : Derives k s v s') (projected : List String) :
    Quiet s.rest (k.print (k.project projected v)).toList :=
  h.silent projected

end Derives
end Phrase
end ShadowImpl
