import ShadowImpl.Proofs.Chunks

/-!
# Printed paths

A printed path in front of another text is read as that path, if its names are no keywords, its
arguments are read as they are and the text behind it does not go on with it. What is read again is
said of each part in front of the text behind it, so that a whole is put together from its parts.
-/

namespace ShadowImpl

open Filter Lexeme Recogniser

variable {e : Expectation} {w z g y : List Char}

/-! ## What does not stand next -/

/-- Behind layout, the text starts with the letters of `κ`. -/
def Opens (κ : Terminal) (z : List Char) : Prop :=
  κ.spelling <+: z.dropWhile isLayout

theorem Gap.head_cases (h : Gap e g) : ∀ c ∈ g.head?, isLayout c = true ∨ c = '/' := by
  have hcomment : ∀ {w z : List Char} {k : Nat}, first e (w ++ z) =
      some (.comment, k) → k = w.length → ∃ r, w = '/' :: r := by
    intro w z k hw hk
    have hpos := (first_bounds hw).1
    cases w with
    | nil => simp [hk] at hpos
    | cons c w =>
      obtain rfl : c = '/' := by simpa [starts] using starts_of_recognise (first_eq_some hw).2
      exact ⟨w, rfl⟩
  cases h with
  | nil => simp
  | layout hc _ => simp [hc]
  | line hc _ =>
    obtain ⟨r, rfl⟩ := hcomment (hc []) rfl
    simp
  | block hc _ _ =>
    obtain ⟨r, rfl⟩ := hcomment (hc []) rfl
    simp

theorem kind_ne_of_not_opens {κ : Terminal} (hκ : κ ∈ Terminal.keywords ++ Terminal.symbols)
    (hslash : (z.dropWhile isLayout).head? ≠ some '/') (h : ¬ Opens κ z) :
    (Next.of e z).kind ≠ κ := by
  intro hkind
  have hg : IsLayout (z.takeWhile isLayout) := fun c hc => List.mem_takeWhile_imp hc
  rw [← List.takeWhile_append_dropWhile (p := isLayout) (l := z), (gap_of_isLayout hg).of_append,
    Next.kind_prepend] at hkind
  have hhead := List.head?_dropWhile_not isLayout z
  rw [Opens] at h
  generalize z.dropWhile isLayout = r at hkind h hslash hhead
  -- Behind the layout the token stands right at the front, as no comment can.
  cases hn : Next.of e r with
  | ended =>
    obtain rfl : _ = κ := by simpa [hn, Next.kind] using hkind
    exact absurd hκ (by decide)
  | unknown =>
    obtain rfl : _ = κ := by simpa [hn, Next.kind] using hkind
    exact absurd hκ (by decide)
  | token t y =>
    rw [hn] at hkind
    subst hkind
    have hr := (Next.of_eq_token hn).1
    have hgap : t.gap = [] := by
      cases hgap : t.gap with
      | nil => rfl
      | cons c g' =>
        rw [hgap] at hr
        subst hr
        rcases (gap_of_token hn).head_cases c (by simp [hgap]) with hc | rfl
        · simp [hc] at hhead
        · simp at hslash
    refine h ⟨y, ?_⟩
    rw [hr, hgap, Next.text_of_token hn hκ]
    rfl

theorem kind_of_eq {κ : Terminal} {x : List Char} (h : Next.of e x = .token ⟨κ, g, w⟩ z) :
    (Next.of e x).kind = κ :=
  congrArg Next.kind h

/-! ## Names -/

/-- A name that is not spelled like a keyword. -/
structure IsPlainName (w : String) : Prop where
  isName : IsName w.toList
  ne : ∀ κ ∈ Terminal.keywords, κ.spelling ≠ w.toList

variable {name : String}

theorem IsPlainName.of_name (h : IsPlainName name) (he : .ident ∈ e) (hg : IsLayout g)
    (hz : Breaks z) : Next.of e (g ++ (name.toList ++ z)) = .token ⟨.ident, g, name.toList⟩ z := by
  rw [ShadowImpl.of_name h.isName he hg hz]
  rcases ofName_cases e name.toList with hn | ⟨hmem, hn⟩
  · rw [hn]
  · exact absurd hn (h.ne _ hmem)

theorem join_cons_cons (sep a b : String) (l : List String) :
    (Text.join sep (a :: b :: l)).toList =
      a.toList ++ (sep.toList ++ (Text.join sep (b :: l)).toList) := by
  simp [Text.join]

/-! ## Lists of syntax -/

theorem printTys_eq_map (ts : List Ty) : printTys ts = ts.map Ty.print := by
  induction ts with
  | nil => rw [printTys, List.map_nil]
  | cons t ts ih => rw [printTys, ih, List.map_cons]

theorem printGenericArgs_eq_map (args : List GenericArg) :
    printGenericArgs args = args.map GenericArg.print := by
  induction args with
  | nil => rw [printGenericArgs, List.map_nil]
  | cons a args ih => rw [printGenericArgs, ih, List.map_cons]

theorem printFnArgs_eq_map (args : List FnArg) : printFnArgs args = args.map FnArg.print := by
  induction args with
  | nil => rw [printFnArgs, List.map_nil]
  | cons a args ih => rw [printFnArgs, ih, List.map_cons]

theorem printEachBound_eq_map (bs : List Bound) : printEachBound bs = bs.map Bound.print := by
  induction bs with
  | nil => rw [printEachBound, List.map_nil]
  | cons b bs ih => rw [printEachBound, ih, List.map_cons]

/-! ## Types in a text -/

/-- The first token of a printed type. -/
def Ty.opening : Ty → Terminal
  | .path p => if p.rooted then .pathSep else .ident
  | .qualified .. => .lt
  | .ref .. => .amp
  | .ptr .. => .star
  | .tuple _ => .lpar
  | .paren _ => .lpar
  | .slice _ => .lsqb
  | .array .. => .lsqb
  | .never => .bang
  | .implTrait _ => .kwImpl
  | .dynTrait _ => .kwDyn
  | .fnPtr (_ :: _) .. => .kwFor
  | .fnPtr [] true .. => .kwUnsafe
  | .fnPtr [] false (some _) .. => .kwExtern
  | .fnPtr [] false none .. => .kwFn

theorem Ty.opening_mem (t : Ty) : t.opening ∈ Expected.type := by
  fun_cases Ty.opening t
  all_goals decide

/-- Where any type may start. -/
def typePlaces : List Expectation :=
  [Expected.type, Expected.typeOrClose, Expected.referent, Expected.mutOrType, Expected.genericArg,
    Expected.predicate, Expected.clausePredicate]

namespace Grammar

open Reading

/-- In front of `z`, a printed type is read as that type. -/
def Typed (t : Ty) (z : List Char) : Prop :=
  ∀ e ∈ Expected.afterBinder :: typePlaces, t.opening ∈ e → ∀ g, IsLayout g →
    (Next.of e (g ++ (t.print.toList ++ z))).kind = t.opening ∧
    ∀ᶠ n in atTop, (ty n).Reads e (g ++ (t.print.toList ++ z)) t Expected.afterType z

theorem Typed.at_place {t : Ty} (h : Typed t z) (he : e ∈ typePlaces) (hg : IsLayout g) :
    (Next.of e (g ++ (t.print.toList ++ z))).kind = t.opening ∧
    ∀ᶠ n in atTop, (ty n).Reads e (g ++ (t.print.toList ++ z)) t Expected.afterType z := by
  have hall : ∀ e ∈ typePlaces, ∀ κ ∈ Expected.type, κ ∈ e := by decide
  exact h e (by simp [he]) (hall e he _ t.opening_mem) g hg

theorem Typed.reads {t : Ty} (h : Typed t z) (he : e ∈ typePlaces) (hg : IsLayout g) :
    ∀ᶠ n in atTop, (ty n).Reads e (g ++ (t.print.toList ++ z)) t Expected.afterType z :=
  (h.at_place he hg).2

theorem Typed.kind_ne {t : Ty} (h : Typed t z) (he : e ∈ typePlaces)
    (hg : IsLayout g) {κ : Terminal} (hκ : κ ∉ Expected.type) :
    (Next.of e (g ++ (t.print.toList ++ z))).kind ≠ κ := by
  rw [(h.at_place he hg).1]
  rintro rfl
  exact hκ t.opening_mem

/-- The arrow and the type behind it, if there is one. -/
def OutputRead : Option Ty → List Char → Prop
  | none, z => ∀ e, (Next.of e z).kind ≠ .arrow
  | some t, z => Typed t z

/-- Types up to a closing parenthesis. -/
def TypesRead (ts : List Ty) (z : List Char) : Prop :=
  CommaListed ty .rpar Expected.typeOrClose Expected.afterType
    (Text.join ", " (printTys ts)).toList ts z

theorem OutputRead.reads {output : Option Ty} (h : OutputRead output z) :
    ∀ᶠ n in atTop, (returnTy n).Reads Expected.afterType ((printOutput output).toList ++ z) output
      Expected.afterType z := by
  cases output with
  | none =>
    refine eventually_of_succ (.of_forall fun n => ?_)
    rw [returnTy, printOutput]
    refine .absent (h _) ?_
    rw [if_neg (by simp)]
    exact .pure _
  | some t =>
    have ht := Typed.reads h (e := Expected.type) (by decide) isLayout_space
    have harrow := of_symbol (e := Expected.afterType) (κ := .arrow) (g := [' '])
      (z := ' ' :: (t.print.toList ++ z)) (by decide) isLayout_space
    refine eventually_of_succ ?_
    filter_upwards [ht] with n hn
    rw [returnTy, printOutput, String.toList_append, List.append_assoc]
    refine .present harrow ?_
    rw [if_pos rfl]
    exact .map hn

theorem TypesRead.reads {ts : List Ty} (h : TypesRead ts z) (hg : IsLayout g) :
    ∀ᶠ n in atTop, (types n).Reads Expected.typeOrClose
      (g ++ ((Text.join ", " (printTys ts)).toList ++ (Terminal.rpar.spelling ++ z))) ts
      Expected.afterType z := by
  refine eventually_of_succ ?_
  filter_upwards [h g hg, eventually_gt_atTop ts.length] with n hn hk
  rw [types]
  exact hn n hk

end Grammar

/-! ## Paths -/

/-- The text of the segments of a path. -/
def segmentChars (segs : List Segment) : List Char :=
  (Text.join "::" (printSegments segs)).toList

/-- What is written behind the name of a segment. -/
def argChars : Option PathArgs → List Char
  | none => []
  | some args => args.print.toList

/-- What is written behind a segment. -/
def moreChars : List Segment → List Char
  | [] => []
  | seg :: segs => Terminal.pathSep.spelling ++ segmentChars (seg :: segs)

theorem segmentChars_cons (name : String) (args : Option PathArgs) (rest : List Segment) :
    segmentChars (⟨name, args⟩ :: rest) = name.toList ++ (argChars args ++ moreChars rest) := by
  have hprint : (Segment.print ⟨name, args⟩).toList = name.toList ++ argChars args := by
    cases args <;> simp [Segment.print, argChars]
  cases rest with
  | nil => simp [segmentChars, printSegments, Text.join, hprint, moreChars]
  | cons seg rest =>
    rw [segmentChars, printSegments, printSegments, join_cons_cons, hprint, List.append_assoc]
    rfl

namespace Grammar

open Reading

theorem finds_afterName : ∀ e ∈ [Expected.afterType, Expected.afterLabel],
    finds e .pathSep = true ∧ finds e .lt = true ∧ finds e .lpar = true := by
  decide

/-- The segments that follow one, in front of `z`. -/
def MoreRead (rest : List Segment) (z : List Char) : Prop :=
  ∀ last, ∀ e ∈ [Expected.afterType, Expected.afterLabel], ∃ e' ∈ [Expected.afterType, e],
    ∀ᶠ n in atTop, (moreSegments last n).Reads e (moreChars rest ++ z) (last :: rest) e' z

/-- The segments of a path in front of `z`, the first name of which may have been taken for a
label. -/
def Segmented : List Segment → List Char → Prop
  | [], _ => False
  | ⟨name, args⟩ :: rest, z => IsPlainName name ∧ Breaks (argChars args ++ (moreChars rest ++ z)) ∧
    ∀ e ∈ [Expected.afterType, Expected.afterLabel], ∃ e' ∈ [Expected.afterType, e],
      ∀ᶠ n in atTop, (segmentsFrom name n).Reads e (argChars args ++ (moreChars rest ++ z))
        (⟨name, args⟩ :: rest) e' z

theorem MoreRead.nil (h : ∀ e, (Next.of e z).kind ≠ .pathSep) : MoreRead [] z := by
  intro last e _
  refine ⟨e, by simp, eventually_of_succ (.of_forall fun n => ?_)⟩
  rw [moreSegments]
  refine .absent (h e) ?_
  rw [if_neg (by simp)]
  exact .pure _

/-- Segments are read wherever a name is expected. -/
theorem Segmented.segments {segs : List Segment} (h : Segmented segs z) (he : .ident ∈ e)
    (hg : IsLayout g) : (Next.of e (g ++ (segmentChars segs ++ z))).kind = .ident ∧
      ∀ᶠ n in atTop, (segments n).Reads e
        (g ++ (segmentChars segs ++ z)) segs Expected.afterType z := by
  match segs, h with
  | ⟨name, args⟩ :: rest, ⟨hname, hbreaks, hfrom⟩ =>
    obtain ⟨e', he', hfrom⟩ := hfrom Expected.afterType (by simp)
    obtain rfl : e' = Expected.afterType := by simpa using he'
    rw [segmentChars_cons, List.append_assoc, List.append_assoc]
    have hof := hname.of_name he hg hbreaks
    refine ⟨congrArg Next.kind hof, eventually_of_succ ?_⟩
    filter_upwards [hfrom] with n hn
    rw [Grammar.segments]
    refine .token hof ?_
    rwa [String.ofList_toList]

theorem MoreRead.cons {rest : List Segment} (h : Segmented rest z) : MoreRead rest z := by
  intro last e he
  have hne : rest ≠ [] := by
    rintro rfl
    exact h
  obtain ⟨seg, segs, rfl⟩ := List.exists_cons_of_ne_nil hne
  obtain ⟨hkind, hsegs⟩ := h.segments (e := Expected.pathPiece) (by decide) isLayout_nil
  rw [List.nil_append] at hkind hsegs
  refine ⟨Expected.afterType, by simp, eventually_of_succ ?_⟩
  filter_upwards [hsegs] with n hn
  rw [moreSegments, moreChars, List.append_assoc]
  refine .present (of_symbol_front (finds_afterName e he).1) ?_
  rw [if_pos rfl]
  refine .peek hkind ?_
  rw [if_neg (by decide)]
  exact .map hn

/-- The arguments of a trait or type, in angle brackets. -/
def AngleRead (args : List GenericArg) (z : List Char) : Prop :=
  CommaListed genericArg .gt Expected.genericArg Expected.afterType
    (Text.join ", " (printGenericArgs args)).toList args z

theorem AngleRead.reads {args : List GenericArg} (h : AngleRead args z) (he : finds e .lt = true) :
    ∀ᶠ n in atTop, (angleArgs n).Reads e (Terminal.lt.spelling ++
      ((Text.join ", " (printGenericArgs args)).toList ++ (Terminal.gt.spelling ++ z))) args
      Expected.afterType z := by
  refine eventually_of_succ ?_
  filter_upwards [h [] isLayout_nil, eventually_gt_atTop args.length] with n hn hk
  rw [angleArgs]
  exact .token (of_symbol_front he) (hn n hk)

/-- The arguments of a segment in front of `z`. -/
def ArgsRead : Option PathArgs → List Char → Prop
  | none, z => Breaks z ∧ ∀ e, (Next.of e z).kind ∉ [Terminal.lt, .lpar]
  | some (.angle args _), z => AngleRead args z
  | some (.paren inputs output), z =>
    TypesRead inputs ((printOutput output).toList ++ z) ∧ OutputRead output z

/-- The arguments right behind a name. -/
theorem ArgsRead.segmentArgs {args : Option PathArgs} (h : ArgsRead args z)
    (hargs : ∀ as, args ≠ some (.angle as true))
    (he : e ∈ [Expected.afterType, Expected.afterLabel]) :
    ∃ e' ∈ [Expected.afterType, e], ∀ᶠ n in atTop,
      (segmentArgs n).Reads e (argChars args ++ z) args e' z := by
  -- Only a turbofish is read elsewhere.
  match args, h with
  | none, h =>
    refine ⟨e, by simp, eventually_of_succ (.of_forall fun n => ?_)⟩
    rw [Grammar.segmentArgs]
    refine .peek rfl ?_
    have hkind := h.2 e
    simp only [List.mem_cons, List.not_mem_nil, or_false, not_or] at hkind
    split
    · exact absurd ‹_› hkind.1
    · exact absurd ‹_› hkind.2
    · exact .pure _
  | some (.angle as false), h =>
    have htext : argChars (some (.angle as false)) ++ z = Terminal.lt.spelling ++
        ((Text.join ", " (printGenericArgs as)).toList ++ (Terminal.gt.spelling ++ z)) := by
      simp [argChars, PathArgs.print, Terminal.spelling]
    refine ⟨Expected.afterType, by simp, eventually_of_succ ?_⟩
    have hlt := (finds_afterName e he).2.1
    filter_upwards [AngleRead.reads h hlt] with n hn
    rw [Grammar.segmentArgs, htext]
    exact .peek_token (of_symbol_front hlt) (.map hn)
  | some (.paren inputs output), h =>
    have htext : argChars (some (.paren inputs output)) ++ z = Terminal.lpar.spelling ++
        ((Text.join ", " (printTys inputs)).toList ++
          (Terminal.rpar.spelling ++ ((printOutput output).toList ++ z))) := by
      simp [argChars, PathArgs.print, Terminal.spelling]
    refine ⟨Expected.afterType, by simp, eventually_of_succ ?_⟩
    filter_upwards [h.1.reads isLayout_nil, h.2.reads] with n hinputs houtput
    rw [Grammar.segmentArgs, htext]
    have hlpar := (finds_afterName e he).2.2
    refine .peek_token (of_symbol_front hlpar) (.shift (of_symbol_front hlpar) ?_)
    exact hinputs.bind (.map (f := fun o => some (PathArgs.paren inputs o)) houtput)
  | some (.angle as true), _ => exact absurd rfl (hargs as)

theorem ArgsRead.breaks {args : Option PathArgs} (h : ArgsRead args z) :
    Breaks (argChars args ++ z) := by
  match args, h with
  | none, h => exact h.1
  | some (.angle as false), _ => simp [argChars, PathArgs.print, Breaks, isBreak]
  | some (.angle as true), _ => simp [argChars, PathArgs.print, Breaks, isBreak]
  | some (.paren inputs output), _ => simp [argChars, PathArgs.print, Breaks, isBreak]

theorem Segmented.mk {args : Option PathArgs} {rest : List Segment} (hname : IsPlainName name)
    (hargs : ArgsRead args (moreChars rest ++ z)) (hmore : MoreRead rest z) :
    Segmented (⟨name, args⟩ :: rest) z := by
  refine ⟨hname, hargs.breaks, fun e he => ?_⟩
  by_cases hturbofish : ∃ as, args = some (.angle as true)
  · -- the turbofish is read as the arguments of a segment that has none
    obtain ⟨as, rfl⟩ := hturbofish
    have htext : argChars (some (.angle as true)) ++ (moreChars rest ++ z) =
        Terminal.pathSep.spelling ++
        (Terminal.lt.spelling ++ ((Text.join ", " (printGenericArgs as)).toList ++
          (Terminal.gt.spelling ++ (moreChars rest ++ z)))) := by
      simp [argChars, PathArgs.print, Terminal.spelling]
    obtain ⟨e', he', hmore⟩ := hmore ⟨name, some (.angle as true)⟩ Expected.afterType (by simp)
    refine ⟨e', ?_, eventually_of_succ (eventually_of_succ ?_)⟩
    · simp only [List.mem_cons, List.not_mem_nil, or_false, or_self] at he' ⊢
      exact .inl he'
    · filter_upwards [AngleRead.reads hargs (e := Expected.pathPiece)
        (by decide), hmore] with n hn hmore
      rw [segmentsFrom, segmentArgs, htext]
      refine Reads.bind (.peek_token (of_symbol_front (finds_afterName e he).1) (.pure none)) ?_
      rw [moreSegments]
      refine .present (of_symbol_front (finds_afterName e he).1) ?_
      rw [if_pos rfl]
      refine .peek_token (of_symbol_front (by decide)) ?_
      rw [if_pos rfl]
      exact hn.bind hmore
  · obtain ⟨e₁, he₁, hargs⟩ := hargs.segmentArgs (fun as h => hturbofish ⟨as, h⟩) he
    have he₁' : e₁ ∈ [Expected.afterType, Expected.afterLabel] := by
      simp only [List.mem_cons, List.not_mem_nil, or_false] at he he₁ ⊢
      rcases he₁ with rfl | rfl
      · exact .inl rfl
      · exact he
    obtain ⟨e', he', hmore⟩ := hmore ⟨name, args⟩ e₁ he₁'
    refine ⟨e', ?_, eventually_of_succ ?_⟩
    · simp only [List.mem_cons, List.not_mem_nil, or_false] at he₁ he' ⊢
      rcases he' with rfl | rfl
      · exact .inl rfl
      · exact he₁
    · filter_upwards [hargs, hmore] with n hargs hmore
      rw [segmentsFrom]
      exact hargs.bind hmore

/-- A path in front of `z`. -/
def Pathed (p : Path) (z : List Char) : Prop :=
  ∀ e, .ident ∈ e → finds e .pathSep = true → ∀ g, IsLayout g →
    (Next.of e (g ++ (p.print.toList ++ z))).kind = (if p.rooted then .pathSep else .ident) ∧
    ∀ᶠ n in atTop, (path n).Reads e (g ++ (p.print.toList ++ z)) p Expected.afterType z

theorem Segmented.pathed {segs : List Segment} (h : Segmented segs z) (rooted : Bool) :
    Pathed ⟨segs, rooted⟩ z := by
  intro e he hsep g hg
  cases rooted with
  | true =>
    have htext : (Path.print ⟨segs, true⟩).toList ++ z =
        Terminal.pathSep.spelling ++ (segmentChars segs ++ z) := by
      simp [Path.print, segmentChars, Terminal.spelling]
    have hof := of_symbol (z := segmentChars segs ++ z) hsep hg
    obtain ⟨-, hsegs⟩ := h.segments (e := Expected.name) (by decide) isLayout_nil
    rw [htext]
    refine ⟨congrArg Next.kind hof, eventually_of_succ ?_⟩
    filter_upwards [hsegs] with n hn
    rw [path]
    exact .present hof (.map hn)
  | false =>
    have htext : (Path.print ⟨segs, false⟩).toList = segmentChars segs := by
      simp [Path.print, segmentChars]
    obtain ⟨hkind, hsegs⟩ := h.segments he hg
    rw [htext]
    refine ⟨hkind, eventually_of_succ ?_⟩
    filter_upwards [hsegs] with n hn
    rw [path]
    exact .absent (by simp [hkind]) (.map hn)

end Grammar
end ShadowImpl
