import ShadowImpl.Proofs.Abridgement

/-!
# Predicates keep their tokens in print

Each phrase that was read is printed as the tokens between the scans in front of it and behind it,
but for what `Abridged` leaves out. The proof is an induction on the derivation; what a text has to
be to stand behind a printed phrase depends on the kind of the phrase.
-/

namespace ShadowImpl

open Lexeme Recogniser Reading

variable {s s' s₁ s₂ s₃ s₄ s₅ s₆ : Scan} {e e' e'' : Expectation} {κ : Terminal} {t u : Token}
  {x y z : List Char}

/-- No array length ends in a line of documentation. -/
def Label.Closed : Label → Prop
  | .arrayTy length => ¬ EndsInLineDoc length.toList
  | _ => True

/-! ## All predicates -/

/-- Predicates up to the end of a text are printed as `x`. A comma behind the last
one is left out. -/
def KeptAll (s s' : Scan) (x : List Char) : Prop :=
  ∃ ts m ws, s.Takes (ts ++ m) s' ∧ (m = [] ∨ ∃ c : Token, m = [c] ∧ c.kind = .comma) ∧
    Abridged True ts ws ∧ Worded x ws []

namespace KeptAll

theorem nil (s : Scan) : KeptAll s s [] :=
  ⟨[], [], [], .refl s, .inl rfl, .nil, .nil []⟩

theorem single (h : Kept s s' x (Finishes s')) : KeptAll s s' x := by
  obtain ⟨ts, ws, hts, habr, hw⟩ := h
  exact ⟨ts, [], ws, by simpa using hts, .inl rfl, habr, by simpa using hw [] (.nil s')⟩

/-- A comma behind the last predicate. -/
theorem comma (h : Kept s s₁ x (Finishes s₁)) (hm : s₁.Shifts .comma e t s') : KeptAll s s' x := by
  obtain ⟨ts, ws, hts, habr, hw⟩ := h
  exact ⟨ts, [t], ws, hts.trans hm.takes, .inr ⟨t, rfl, hm.kind⟩, habr,
    by simpa using hw [] (.nil s₁)⟩

/-- A predicate in front of others, with the comma that stood between them. -/
theorem cons (h : Kept s s₁ x (Finishes s₁)) (hm : s₁.Shifts .comma e t s₂) (hps : KeptAll s₂ s' y)
    (hq : Quiet s₂.rest y) : KeptAll s s' (x ++ (", ".toList ++ y)) := by
  obtain ⟨ts, ws, hts, habr, hw⟩ := h
  obtain ⟨us, m, xs, hus, hm', habr', hw'⟩ := hps
  have hfits : Finishes s₁ (", ".toList ++ y) := ⟨by simp, by simpa using hm.reaches.quiet hq⟩
  refine ⟨ts ++ t :: us, m, ws ++ t.text :: xs, ?_, hm',
    .append habr (.append (.token (by rw [hm.kind]; rfl)) habr'), ?_⟩
  · simpa using hts.trans (hm.takes.trans hus)
  · rw [hm.text_eq (by decide)]
    exact (hw _ hfits).append (.symbol (κ := .comma) (by decide) hw'.space)

end KeptAll

/-! ## Every phrase is kept -/

namespace Phrase

/-- What a text has to be to stand behind a printed phrase. -/
def Fits : Phrase → Scan → List Char → Prop
  | binder, _, _ => True
  | commas (lifetime _) _ _ _, _, _ => True
  | lifetime _, _, z => Breaks z
  | pluses k _, s, z => k.Fits s z
  | orNone _ _, s, z | predicate, s, z => Finishes s z
  | predicates, _, z => z = []
  | _, s, z => Fitting s z

/-- Between two scans stands what the phrase is printed as. -/
def Holds : (k : Phrase) → Scan → k.Value → Scan → Prop
  | args, s, a, s' => ∀ {s₀ e n}, s₀.Shifts .ident e n s →
      Kept s₀ s' (n.text ++ argChars a) (Fitting s')
  | commas k close e e', s, as, s' => KeptList close s s' (Text.join ", " (as.map k.print)).toList
      ((commas k close e e').Fits s')
  | predicates, s, ps, s' => KeptAll s s' (Text.join ", " (ps.map Predicate.print)).toList
  | k, s, v, s' => Kept s s' (k.print v).toList (k.Fits s')

namespace Derives

variable {k : Phrase} {v : k.Value}

/-- A printed phrase in front of a quiet text leaves it quiet. -/
theorem quiet_ahead (h : Derives k s v s') (hz : Breaks z) (hq : Quiet s'.rest z) :
    Quiet s.rest ((k.print v).toList ++ z) := by
  have := h.quiet_front [] hq hz
  rwa [project_nil] at this

end Derives

/-- What may follow a type, in front of a text. -/
theorem fits_after {k : Phrase} {o : Option k.Value} (h : Derives (.after κ e k) s o s')
    (hz : Fitting s' z) : Fitting s (((after κ e k).print o).toList ++ z) := by
  refine ⟨?_, h.quiet_ahead hz.1 hz.2⟩
  cases h with
  | afterNone => exact hz.1
  | afterSome => simp [print, Breaks, isBreak]

/-- The bracket that closes a list, in front of a text. -/
theorem fits_close {k : Phrase} {close : Terminal} (hk : Bracketed k close e e')
    (h : s.Reaches s') (hz : (commas k close e e').Fits s' z) : k.Fits s (close.spelling ++ z) := by
  cases hk with
  | types | genericArgs | fnArgs => exact fits_symbol h (by simp) hz.2
  | lifetimes => simp [Fits, Breaks, Terminal.spelling, isBreak]

/-- A comma and the rest of a list, in front of a text. -/
theorem fits_comma {k : Phrase} {close : Terminal} {as : List k.Value} (hk : Bracketed k close e e')
    (h : s.Shifts .comma e'' t s₁) (has : Derives (commas k close e e') s₁ as s')
    (hz : (commas k close e e').Fits s' z) :
    k.Fits s (',' :: ' ' ::
      ((Text.join ", " (as.map k.print)).toList ++ (close.spelling ++ z))) := by
  cases hk with
  | types | genericArgs | fnArgs =>
    have hq := has.quiet_ahead hz.1 hz.2
    exact fits_shift h (by simp) (by simpa [print] using hq)
  | lifetimes => simp [Fits, Breaks, isBreak]

/-- A plus sign and more, in front of a text. -/
theorem fits_plus {k : Phrase} {as : List k.Value} (hk : Summed k e) (h : s.Shifts .plus e' t s₁)
    (has : Derives (pluses k e) s₁ as s') (hz : (pluses k e).Fits s' z) :
    k.Fits s (' ' :: '+' :: ' ' :: ((Text.join " + " (as.map k.print)).toList ++ z)) := by
  cases hk with
  | bounds =>
    have hq := h.reaches.quiet (has.quiet_ahead hz.1 hz.2)
    exact ⟨by simp [Breaks, isBreak], by simpa [print] using hq⟩
  | lifetimes => simp [Fits, Breaks, isBreak]

/-- What may stand behind a predicate may stand behind its last bound. -/
theorem fits_finishes {k : Phrase} (hk : Summed k e) (hz : Finishes s z) : k.Fits s z := by
  cases hk with
  | bounds => exact ⟨hz.continues.ends.breaks, hz.quiet⟩
  | lifetimes => exact hz.continues.ends.breaks

end Phrase

/-- A subject with what it is bound by. -/
theorem Kept.bounded {j k : Phrase} {as : List k.Value} (h : Kept s s₁ x (j.Fits s₁))
    (hk : ∀ z, Phrase.Fitting s₁ z → j.Fits s₁ z) (hcolon : s₁.Shifts .colon e t s₂)
    (has : Phrase.Derives (.orNone k e') s₂ as s')
    (hkept : Kept s₂ s' (Text.join " + " (as.map k.print)).toList (Finishes s')) :
    Kept s s' (x ++ Grammar.boundChars (Text.join " + " (as.map k.print)) as.isEmpty)
      (Finishes s') := by
  have hquiet : ∀ z, Finishes s' z →
      Quiet s₂.rest ((Text.join " + " (as.map k.print)).toList ++ z) :=
    fun z hz => has.quiet_ahead hz.continues.ends.breaks hz.quiet
  cases as with
  | nil =>
    have hall := h.append ((Kept.colon hcolon).append hkept fun z hz => hz.head_ne) fun z hz =>
      hk _ (Phrase.fits_shift hcolon (by simp) (hquiet z hz))
    simpa [Grammar.boundChars, Text.join] using hall
  | cons a as =>
    have hall := h.append ((Kept.colon hcolon).append hkept.space fun z hz => by simp) fun z hz =>
      hk _ (Phrase.fits_shift hcolon (by simp) (by simpa using hquiet z hz))
    simpa [Grammar.boundChars] using hall

/-- A qualified path. -/
theorem Kept.qualified {v : Token} {self : Ty} {asTrait : Option Path} {segs : List Segment}
    (hlt : s.Shifts .lt Expected.type t s₁)
    (hself : Kept s₁ s₂ self.print.toList (Phrase.Fitting s₂))
    (has : Phrase.Derives (.after .kwAs Expected.path .path) s₂ asTrait s₃)
    (hkept : Kept s₂ s₃ ((Phrase.after .kwAs Expected.path .path).print asTrait).toList
      (Phrase.Fitting s₃))
    (hgt : s₃.Shifts .gt [.pathSep] u s₄) (hsep : s₄.Shifts .pathSep Expected.name v s₅)
    (hsegs : Phrase.Derives .segments s₅ segs s')
    (hrest : Kept s₅ s' (segmentChars segs) (Phrase.Fitting s')) :
    Kept s s' (Ty.qualified self asTrait ⟨segs, false⟩).print.toList (Phrase.Fitting s') := by
  have hinner := (hself.append hkept fun z hz => Phrase.fits_after has hz).wrap
    (φ := Phrase.Fitting s₄) hlt hgt (by decide) fun z hz => Phrase.fits_shift hgt (by simp) hz.2
  have hall := hinner.append ((Kept.symbol hsep (by decide)).before hrest) fun z hz => by
    rw [List.append_assoc]
    exact Phrase.fits_shift hsep (by simp) (hsegs.quiet_ahead hz.1 hz.2)
  cases asTrait <;>
    simpa [Phrase.print, Ty.print, Path.print, Terminal.spelling, segmentChars] using hall

/-- A function pointer. -/
theorem Kept.fnPtr {ls : List Lifetime} {isUnsafe : Bool} {abi : Option String}
    {inputs : List FnArg} {output : Option Ty}
    (hls : Kept s s₁ (printBinder ls).toList fun _ => True)
    (hsafety : s₁.Flag .kwUnsafe [.kwExtern, .kwFn] isUnsafe s₂) (habi : s₂.Abi abi s₃)
    (hfn : s₃.Shifts .kwFn [.lpar] t s₄) (hopen : s₄.Shifts .lpar Expected.typeOrClose u s₅)
    (hinputs : KeptList .rpar s₅ s₆ (Text.join ", " (inputs.map FnArg.print)).toList
      (Phrase.Fitting s₆))
    (houtput : Phrase.Derives (.after .arrow Expected.type .ty) s₆ output s')
    (hkept : Kept s₆ s' ((Phrase.after .arrow Expected.type .ty).print output).toList
      (Phrase.Fitting s')) :
    Kept s s' (Ty.fnPtr ls isUnsafe abi inputs output).print.toList (Phrase.Fitting s') := by
  have hname : IsName t.text := by
    rw [hfn.text_eq (by decide), IsName]
    decide
  have hcall := (hinputs.call hfn (by simp) hname hopen).append hkept fun z hz =>
    Phrase.fits_after houtput hz
  have hall := hls.before ((hsafety.kept_keyword (by decide)).before (habi.kept.before hcall))
  rw [Phrase.print_output, hfn.text_eq (by decide)] at hall
  -- an ABI without a name and one whose name is empty are printed alike
  rcases abi with - | name
  · cases isUnsafe <;>
      simpa [Ty.print, printFnArgs_eq_map, abiChars, Terminal.spelling] using hall
  · by_cases hne : name = "" <;> cases isUnsafe <;>
      simpa [Ty.print, printFnArgs_eq_map, abiChars, hne, Terminal.spelling] using hall

namespace Phrase

/-- Between two scans, a phrase keeps its tokens if no array length in it ends in a line of
documentation. -/
def Keeps (k : Phrase) (s : Scan) (v : k.Value) (s' : Scan) : Prop :=
  k.All Label.Closed v → k.Holds s v s'

namespace Keeps

attribute [local simp] All Holds print Fits Label.Closed Terminal.spelling

variable {k : Phrase} {close : Terminal} {c : Token} {a : Ty} {p : Path} {segs : List Segment}
  {args : Option PathArgs} {as : List GenericArg} {bs : List Bound} {ls : List Lifetime}
  {output : Option Ty}

/-! ### Types -/

theorem path (hp : Keeps .path s p s') : Keeps .ty s (.path p) s' := by
  intro hclosed
  have hp' := hp (by simpa [Ty.view] using hclosed)
  simpa [Ty.print] using hp'

/-- The brackets of a qualified path are kept, and what stands in them and behind. -/
theorem qualified {asTrait : Option Path} (hlt : s.Shifts .lt Expected.type t s₁)
    (h : Derives (.after .kwAs Expected.path .path) s₂ asTrait s₃)
    (hgt : s₃.Shifts .gt [.pathSep] u s₄) (hsep : s₄.Shifts .pathSep Expected.name c s₅)
    (h' : Derives .segments s₅ segs s') (hself : Keeps .ty s₁ a s₂)
    (has : Keeps (.after .kwAs Expected.path .path) s₂ asTrait s₃)
    (hsegs : Keeps .segments s₅ segs s') : Keeps .ty s (.qualified a asTrait ⟨segs, false⟩) s' := by
  intro hclosed
  simp only [All, Ty.view, Path.view, Part.all_node, Part.allEach_cons, Part.allEach_append,
    Part.allEach_viewAsTrait] at hclosed
  obtain ⟨-, ⟨hself', has'⟩, ⟨-, hsegs'⟩, -⟩ := hclosed
  exact .qualified hlt (hself hself') h (has has') hgt hsep h' (hsegs hsegs')

/-- A reference keeps its sign, its lifetime and its `mut`. -/
theorem ref {l : Option Lifetime} {mutable : Bool} (hamp : s.Shifts .amp Expected.referent t s₁)
    (hl : s₁.RefLifetime l s₂) (hmut : s₂.Flag .kwMut Expected.type mutable s₃)
    (ha : Keeps .ty s₃ a s') : Keeps .ty s (.ref l mutable a) s' := by
  intro hclosed
  have ha' : Kept s₃ s' a.print.toList (Fitting s') :=
    ha (by simpa [Ty.view] using hclosed)
  have hall := (Kept.symbol hamp (by decide)).before
    (hl.kept.before ((hmut.kept_keyword (by decide)).before ha'))
  cases l <;> cases mutable <;> simpa [Ty.print] using hall

/-- A pointer keeps its kind. -/
theorem ptr (mutable : Bool) (hstar : s.Shifts .star Expected.pointerKind t s₁)
    (hkind : s₁.Shifts (if mutable then .kwMut else .kwConst) Expected.type u s₂)
    (ha : Keeps .ty s₂ a s') : Keeps .ty s (.ptr mutable a) s' := by
  intro hclosed
  have ha' : Kept s₂ s' a.print.toList (Fitting s') :=
    ha (by simpa [Ty.view] using hclosed)
  have hrest := (Kept.keyword hkind (by cases mutable <;> decide)).spaced ha'
  have hall := (Kept.symbol hstar (by decide)).before hrest
  cases mutable <;> simpa [Ty.print] using hall

/-- The empty tuple keeps its two brackets. -/
theorem unit (hopen : s.Shifts .lpar Expected.typeOrClose t s₁)
    (hclose : s₁.Shifts .rpar Expected.afterType u s') : Keeps .ty s (.tuple []) s' := by
  intro _
  have hall := (Kept.nil (f := fun _ => True)).wrap (φ := Fitting s') hopen hclose (by decide)
    fun _ _ => trivial
  simpa [Ty.print, printTys, Text.join] using hall

/-- A tuple of one keeps its comma. Of more a comma at the end is dropped, as a list in brackets
drops it. -/
theorem tuple {elems : List Ty} (hopen : s.Shifts .lpar Expected.typeOrClose t s₁)
    (hcomma : s₂.Shifts .comma Expected.typeOrClose u s₃)
    (h : Derives (.commas .ty .rpar Expected.typeOrClose Expected.afterType) s₃ elems s')
    (ha : Keeps .ty s₁ a s₂)
    (hs : Keeps (.commas .ty .rpar Expected.typeOrClose Expected.afterType) s₃ elems s') :
    Keeps .ty s (.tuple (a :: elems)) s' := by
  intro hclosed
  simp only [All, Ty.view, viewTys, Part.all_node, Part.allEach_cons,
    Part.allEach_viewTys] at hclosed
  have ha' : Kept s₁ s₂ a.print.toList (Fitting s₂) := ha hclosed.2.1
  have hs' : KeptList .rpar s₃ s' (Text.join ", " (elems.map Ty.print)).toList (Fitting s') :=
    hs hclosed.2.2
  have hall := KeptList.tuple (g := if elems = [] then [] else [' ']) ?_ hopen ha' hcomma hs' ?_
  · simpa [Ty.print_tuple_cons] using hall
  · split
    · exact isLayout_nil
    · exact isLayout_space
  · intro z hz
    have hq := h.quiet_ahead hz.1 hz.2
    refine fits_shift hcomma (by simp) (Quiet.text ?_ (by simpa using hq))
    split <;> decide

/-- Brackets around a type are kept. -/
theorem paren (hopen : s.Shifts .lpar Expected.typeOrClose t s₁)
    (hclose : s₂.Shifts .rpar Expected.afterType u s') (ha : Keeps .ty s₁ a s₂) :
    Keeps .ty s (.paren a) s' := by
  intro hclosed
  have ha' : Kept s₁ s₂ a.print.toList (Fitting s₂) :=
    ha (by simpa [Ty.view] using hclosed)
  have hall := ha'.wrap (φ := Fitting s') hopen hclose (by decide) fun z hz =>
    fits_shift hclose (by simp) hz.2
  simpa [Ty.print] using hall

theorem slice (hopen : s.Shifts .lsqb Expected.type t s₁)
    (hclose : s₂.Shifts .rsqb Expected.afterType u s') (ha : Keeps .ty s₁ a s₂) :
    Keeps .ty s (.slice a) s' := by
  intro hclosed
  have ha' : Kept s₁ s₂ a.print.toList (Fitting s₂) :=
    ha (by simpa [Ty.view] using hclosed)
  have hall := ha'.wrap (φ := Fitting s') hopen hclose (by decide) fun z hz =>
    fits_shift hclose (by simp) hz.2
  simpa [Ty.print] using hall

/-- The length of an array is kept as it was written. -/
theorem array {n : Nat} (hopen : s.Shifts .lsqb Expected.type t s₁)
    (hsemi : s₂.Shifts .semi Expected.anything u s₃)
    (hlength : (Grammar.someTrees [.comma, .semi] n).run s₃ = .ok ((), s₄))
    (hclose : s₄.Shifts .rsqb Expected.afterType c s') (ha : Keeps .ty s₁ a s₂) :
    Keeps .ty s (.array a (String.ofList (Text.trim (s₄.textFrom s₃.taken.length)))) s' := by
  intro hclosed
  simp only [All, Ty.view, Label.Closed, Part.all_node, Part.allEach_cons] at hclosed
  rw [String.toList_ofList] at hclosed
  have hall := Kept.array hopen (ha hclosed.2.1) hsemi hlength hclose hclosed.1
  simpa [Ty.print] using hall

/-- The keyword of a type of traits is kept with its bounds. -/
theorem implTrait (hkw : s.Shifts .kwImpl Expected.bound t s₁)
    (hbs : Keeps (.pluses .bound Expected.bound) s₁ bs s') : Keeps .ty s (.implTrait bs) s' := by
  intro hclosed
  have hbs' : Kept s₁ s' (Text.join " + " (bs.map Bound.print)).toList (Fitting s') :=
    hbs (by simpa [Ty.view] using hclosed)
  have hall := (Kept.keyword hkw (by decide)).spaced hbs'
  simpa [Ty.print, printEachBound_eq_map] using hall

theorem dynTrait (hkw : s.Shifts .kwDyn Expected.bound t s₁)
    (hbs : Keeps (.pluses .bound Expected.bound) s₁ bs s') : Keeps .ty s (.dynTrait bs) s' := by
  intro hclosed
  have hbs' : Kept s₁ s' (Text.join " + " (bs.map Bound.print)).toList (Fitting s') :=
    hbs (by simpa [Ty.view] using hclosed)
  have hall := (Kept.keyword hkw (by decide)).spaced hbs'
  simpa [Ty.print, printEachBound_eq_map] using hall

/-- A function type keeps its tokens from the binder to the output. -/
theorem fnPtr {isUnsafe : Bool} {abi : Option String} {inputs : List FnArg}
    (hsafety : s₁.Flag .kwUnsafe [.kwExtern, .kwFn] isUnsafe s₂) (habi : s₂.Abi abi s₃)
    (hfn : s₃.Shifts .kwFn [.lpar] t s₄) (hopen : s₄.Shifts .lpar Expected.typeOrClose u s₅)
    (h : Derives (.after .arrow Expected.type .ty) s₆ output s') (hls : Keeps .binder s ls s₁)
    (hinputs : Keeps (.commas .fnArg .rpar Expected.typeOrClose Expected.afterType) s₅ inputs s₆)
    (houtput : Keeps (.after .arrow Expected.type .ty) s₆ output s') :
    Keeps .ty s (.fnPtr ls isUnsafe abi inputs output) s' := by
  intro hclosed
  simp only [All, Ty.view, Part.all_node, Part.allEach_append, Part.allEach_viewFnArgs,
    Part.allEach_viewOutput] at hclosed
  exact .fnPtr (hls trivial) hsafety habi hfn hopen (hinputs hclosed.2.1) h (houtput hclosed.2.2)

/-! ### Paths -/

/-- A path keeps the `::` in front of it. -/
theorem segments {rooted : Bool} (hrooted : s.Flag .pathSep Expected.name rooted s₁)
    (hsegs : Keeps .segments s₁ segs s') : Keeps .path s ⟨segs, rooted⟩ s' := by
  intro hclosed
  simp only [All, Path.view, Part.all_node] at hclosed
  have hsegs' : Kept s₁ s' (Phrase.segments.print segs).toList (Fitting s') := hsegs hclosed.2
  have hall := (hrooted.kept_symbol (by decide)).before hsegs'
  cases rooted <;> simpa [Path.print] using hall

theorem last (hname : s.Shifts .ident e t s₁) (hargs : Keeps .args s₁ args s') :
    Keeps .segments s [⟨String.ofList t.text, args⟩] s' := by
  intro hclosed
  simp only [All, viewSegments, Part.allEach_cons, Part.all_node] at hclosed
  have hall := hargs hclosed.1.2 hname
  change Kept s s' (segmentChars _) (Fitting s')
  rwa [segmentChars_cons, String.toList_ofList, moreChars, List.append_nil]

/-- Segments keep the `::` between them. -/
theorem more (hname : s.Shifts .ident e t s₁) (hsep : s₂.Shifts .pathSep Expected.pathPiece u s₃)
    (h : Derives .segments s₃ segs s') (hargs : Keeps .args s₁ args s₂)
    (hsegs : Keeps .segments s₃ segs s') :
    Keeps .segments s (⟨String.ofList t.text, args⟩ :: segs) s' := by
  intro hclosed
  simp only [All, viewSegments, Part.allEach_cons, Part.all_node] at hclosed
  have hsegs' : Kept s₃ s' (segmentChars segs) (Fitting s') := hsegs hclosed.2
  have hrest := (Kept.symbol hsep (by decide)).before hsegs'
  have hall := (hargs hclosed.1.2 hname).append hrest fun z hz => by
    rw [List.append_assoc]
    exact fits_shift hsep (by simp) (h.quiet_ahead hz.1 hz.2)
  rw [List.append_assoc, ← Derives.moreChars_eq h.segments_ne_nil] at hall
  change Kept s s' (segmentChars _) (Fitting s')
  rwa [segmentChars_cons, String.toList_ofList]

/-- A segment without arguments has nothing to keep. -/
theorem noArgs : Keeps .args s none s := by
  intro _ s₀ e n hname
  simpa [argChars] using (Kept.name hname).mono fun z hz => hz.1

/-- Arguments in angle brackets keep the brackets. -/
theorem angle (hopen : s.Shifts .lt Expected.genericArg t s₁)
    (has : Keeps (.commas .genericArg .gt Expected.genericArg Expected.afterType) s₁ as s') :
    Keeps .args s (some (.angle as false)) s' := by
  intro hclosed s₀ e n hname
  have has' : KeptList .gt _ s' (Text.join ", " (as.map GenericArg.print)).toList (Fitting s') :=
    has (by simpa [viewArgs, PathArgs.view] using hclosed)
  simpa [argChars, PathArgs.print, printGenericArgs_eq_map] using has'.args hname hopen

/-- Arguments in parentheses keep them, and their output behind. -/
theorem call {inputs : List Ty} (hopen : s.Shifts .lpar Expected.typeOrClose t s₁)
    (h : Derives (.after .arrow Expected.type .ty) s₂ output s')
    (hinputs : Keeps (.commas .ty .rpar Expected.typeOrClose Expected.afterType) s₁ inputs s₂)
    (houtput : Keeps (.after .arrow Expected.type .ty) s₂ output s') :
    Keeps .args s (some (.paren inputs output)) s' := by
  intro hclosed s₀ e n hname
  simp only [All, viewArgs, PathArgs.view, Part.allEach_cons, Part.all_node, Part.allEach_append,
    Part.allEach_viewTys, Part.allEach_viewOutput] at hclosed
  have houtput' : Kept s₂ s' _ (Fitting s') := houtput hclosed.1.2.2
  have hcall := (hinputs hclosed.1.2.1).call hname (by simp) (isName_of_shifts hname) hopen
  have hall := hcall.append houtput' fun z hz => fits_after h hz
  rw [print_output] at hall
  simpa [argChars, PathArgs.print, printTys_eq_map] using hall

/-- What the turbofish replaced is in no value, so that its tokens are known from the
derivation only. -/
theorem turbofish (h : Derives .args s args s₁) (hsep : s₁.Shifts .pathSep Expected.pathPiece t s₂)
    (hopen : s₂.Shifts .lt Expected.genericArg u s₃)
    (has : Keeps (.commas .genericArg .gt Expected.genericArg Expected.afterType) s₃ as s') :
    Keeps .args s (some (.angle as true)) s' := by
  intro hclosed s₀ e n hname
  have has' : KeptList .gt _ s' (Text.join ", " (as.map GenericArg.print)).toList (Fitting s') :=
    has (by simpa [viewArgs, PathArgs.view] using hclosed)
  obtain ⟨ts, hts⟩ := h.reaches.takes
  have hlost : ts = [] ∨ Arguments ts := by
    cases args with
    | none =>
      cases h
      exact .inl (hts.unique (.refl s))
    | some args => exact .inr ⟨s, args, s₁, h, hsep.kind_next, hts⟩
  have hall := has'.turbofish hname hts hlost hsep hopen
  simpa [argChars, PathArgs.print, printGenericArgs_eq_map] using hall

/-! ### Arguments -/

theorem lifetimeArg {l : Lifetime} (hl : Keeps (.lifetime Expected.afterArg) s l s') :
    Keeps .genericArg s (.lifetime l) s' := by
  intro _
  have hl' := hl trivial
  exact hl'.mono fun z hz => hz.1

/-- A binding keeps its name and its `=`. -/
theorem binding (hname : s.Shifts .ident Expected.afterLabel t s₁)
    (heq : s₁.Shifts .eq Expected.type u s₂) (ha : Keeps .ty s₂ a s') :
    Keeps .genericArg s (.binding (String.ofList t.text) a) s' := by
  intro hclosed
  simp only [All, GenericArg.view, Part.all_node, Part.allEach_cons] at hclosed
  have ha' : Kept s₂ s' a.print.toList (Fitting s') := ha hclosed.2.1
  have hall := (Kept.name hname).spaced ((Kept.symbol heq (by decide)).before ha'.space)
  simpa [GenericArg.print] using hall

theorem constraint (hname : s.Shifts .ident Expected.afterLabel t s₁)
    (hcolon : s₁.Shifts .colon Expected.bound u s₂)
    (hbs : Keeps (.pluses .bound Expected.bound) s₂ bs s') :
    Keeps .genericArg s (.constraint (String.ofList t.text) bs) s' := by
  intro hclosed
  simp only [All, GenericArg.view, Part.all_node, Part.allEach_viewBounds] at hclosed
  have hbs' : Kept s₂ s' (Text.join " + " (bs.map Bound.print)).toList (Fitting s') := hbs hclosed.2
  have hrest := (Kept.colon hcolon).append hbs'.space fun z _ => by simp
  have hall := (Kept.name hname).append hrest fun z _ => by simp [Breaks, isBreak]
  simpa [GenericArg.print, printEachBound_eq_map] using hall

/-- An argument that is a path is kept as the segments are. -/
theorem pathArg (hsegs : Keeps .segments s segs s') :
    Keeps .genericArg s (.ty (.path ⟨segs, false⟩)) s' := by
  intro hclosed
  have hsegs' := hsegs (by simpa [GenericArg.view, Ty.view, Path.view] using hclosed)
  simpa [GenericArg.print, Ty.print, Path.print] using hsegs'

theorem tyArg (ha : Keeps .ty s a s') : Keeps .genericArg s (.ty a) s' :=
  fun hclosed => ha (by simpa [GenericArg.view] using hclosed)

theorem namedParam (hname : s.Shifts .ident Expected.afterLabel t s₁)
    (hcolon : s₁.Shifts .colon Expected.type u s₂) (ha : Keeps .ty s₂ a s') :
    Keeps .fnArg s ⟨some (String.ofList t.text), a⟩ s' := by
  intro hclosed
  have ha' : Kept s₂ s' a.print.toList (Fitting s') := ha hclosed.2
  have hne : t.text ≠ [] := Next.text_ne_nil_of_token hname.next
  have hrest := (Kept.colon hcolon).append ha'.space fun z _ => by simp
  have hall := (Kept.name hname).append hrest fun z _ => by simp [Breaks, isBreak]
  simpa [FnArg.print, hne] using hall

theorem pathParam (hsegs : Keeps .segments s segs s') :
    Keeps .fnArg s ⟨none, .path ⟨segs, false⟩⟩ s' := by
  intro hclosed
  have hsegs' := hsegs (by simpa [Ty.view, Path.view] using hclosed)
  simpa [FnArg.print, Ty.print, Path.print] using hsegs'

/-! ### Bounds -/

theorem outlives {l : Lifetime} (hl : Keeps (.lifetime Expected.afterType) s l s') :
    Keeps .bound s (.lifetime l) s' := by
  intro _
  have hl' := hl trivial
  exact hl'.mono fun z hz => hz.1

/-- A bound keeps the sign in front of it, its binder and its path. -/
theorem trait {maybe : Bool} (hmaybe : s.Flag .qmark Expected.relaxed maybe s₁)
    (hls : Keeps .binder s₁ ls s₂) (hp : Keeps .path s₂ p s') :
    Keeps .bound s (.trait p maybe ls) s' := by
  intro hclosed
  have hls' : Kept s₁ s₂ (printBinder ls).toList fun _ => True := hls trivial
  have hp' : Kept s₂ s' p.print.toList (Fitting s') :=
    hp (by simpa [Bound.view] using hclosed)
  have hall := (hmaybe.kept_symbol (by decide)).before (hls'.before hp')
  cases maybe <;> simpa [Bound.print] using hall

/-- A binder keeps its keyword and its brackets. -/
theorem bound (hfor : s.Shifts .kwFor [.lt] t s₁) (hopen : s₁.Shifts .lt Expected.binderItem u s₂)
    (h : Derives (.commas (.lifetime Expected.afterArg) .gt Expected.binderItem
      Expected.afterBinder) s₂ ls s')
    (hls : Keeps (.commas (.lifetime Expected.afterArg) .gt Expected.binderItem
      Expected.afterBinder) s₂ ls s') : Keeps .binder s ls s' := by
  intro _
  have hls' := hls fun _ _ => trivial
  cases ls with
  | nil =>
    -- without lifetimes no part of the binder is printed
    cases h with
    | commasNil _ hclose =>
      refine ⟨_, [], hfor.takes.trans (hopen.takes.trans hclose.takes), ?_, fun z _ => .nil z⟩
      exact .binder hfor.kind hopen.kind hclose.kind
  | cons l ls => simpa [printBinder] using hls'.binder hfor hopen

/-! ### Lists -/

/-- An element of a list in brackets. -/
theorem element (hk : Bracketed k close e e') {a : k.Value} (ha : Keeps k s a s')
    (hclosed : k.All Label.Closed a) : Kept s s' (k.print a).toList (k.Fits s') := by
  have ha' := ha hclosed
  cases hk <;> exact ha'

/-- An element of a sum. -/
theorem summand (hk : Summed k e) {a : k.Value} (ha : Keeps k s a s')
    (hclosed : k.All Label.Closed a) : Kept s s' (k.print a).toList (k.Fits s') := by
  have ha' := ha hclosed
  cases hk <;> exact ha'

/-- The last element of a list in brackets, with no comma behind it. -/
theorem commasLast (hk : Bracketed k close e e') (hclose : s₁.Shifts close e' t s') {a : k.Value}
    (ha : Keeps k s a s₁) : Keeps (.commas k close e e') s [a] s' :=
  fun hclosed => .single (ha.element hk (hclosed a (by simp))) hclose (by cases hk <;> simp)
    fun _ hz => fits_close hk hclose.reaches hz

/-- An element of a list in brackets, with the comma behind it. -/
theorem commasCons (hk : Bracketed k close e e') (hcomma : s₁.Shifts .comma e t s₂) {a : k.Value}
    {as : List k.Value} (h : Derives (.commas k close e e') s₂ as s') (ha : Keeps k s a s₁)
    (has : Keeps (.commas k close e e') s₂ as s') :
    Keeps (.commas k close e e') s (a :: as) s' := by
  intro hclosed
  have ha' := ha.element hk (hclosed a (by simp))
  have has' := has fun a ha => hclosed a (by simp [ha])
  cases as with
  | nil =>
    -- only the bracket follows the comma
    cases h with
    | commasNil _ hclose =>
      exact .comma ha' hcomma hclose (by cases hk <;> simp) fun z hz =>
        fits_close hk (hcomma.reaches.trans hclose.reaches) hz
  | cons a' as =>
    have hall := KeptList.cons ha' hcomma has' fun z hz => fits_comma hk hcomma h hz
    rw [Holds, List.map_cons, List.map_cons, join_cons_cons]
    simpa using hall

theorem plusesLast (hk : Summed k e) {a : k.Value} (ha : Keeps k s a s') :
    Keeps (.pluses k e) s [a] s' := by
  intro hclosed
  have ha' := ha.summand hk (hclosed _ (by simp))
  simpa [Text.join] using ha'

/-- A summand with the `+` behind it. -/
theorem plusesCons (hk : Summed k e) (hplus : s₁.Shifts .plus e t s₂) {a : k.Value}
    {as : List k.Value} (h : Derives (.pluses k e) s₂ as s') (ha : Keeps k s a s₁)
    (has : Keeps (.pluses k e) s₂ as s') : Keeps (.pluses k e) s (a :: as) s' := by
  intro hclosed
  have ha' := ha.summand hk (hclosed a (by simp))
  have has' : Kept s₂ s' (Text.join " + " (as.map k.print)).toList ((pluses k e).Fits s') :=
    has fun a ha => hclosed a (by simp [ha])
  obtain ⟨a', as, rfl⟩ := List.exists_cons_of_ne_nil h.pluses_ne_nil
  have hrest := (Kept.symbol hplus (by decide)).before has'.space
  have hall := ha'.append hrest.space fun z hz => fits_plus hk hplus h hz
  rw [Holds, print, List.map_cons, List.map_cons, join_cons_cons]
  simpa using hall
  all_goals simp

/-- What stands behind a token of its own is kept with that token. -/
theorem afterSome (hk : Optional κ e k) (h : s.Shifts κ e t s₁) {a : k.Value}
    (ha : Keeps k s₁ a s') : Keeps (.after κ e k) s (some a) s' := by
  intro hclosed
  have ha' := ha (hclosed a rfl)
  cases hk with
  | asTrait =>
    have hall := (Kept.keyword h (by decide)).spaced ha'
    simpa using hall.space
  | output =>
    have hall := (Kept.symbol h (by decide)).before (Kept.space ha')
    simpa using hall.space

theorem orSome (hk : Summed k e) {as : List k.Value} (has : Keeps (.pluses k e) s as s') :
    Keeps (.orNone k e) s as s' := by
  intro hclosed
  have has' : Kept s s' (Text.join " + " (as.map k.print)).toList (k.Fits s') := has hclosed
  exact has'.mono fun z hz => fits_finishes hk hz

/-! ### Predicates -/

/-- A predicate keeps its binder, its subject, the colon and its bounds. -/
theorem type (hcolon : s₂.Shifts .colon Expected.predicateBound t s₃)
    (h : Derives (.orNone .bound Expected.bound) s₃ bs s') (hls : Keeps .binder s ls s₁)
    (ha : Keeps .ty s₁ a s₂) (hbs : Keeps (.orNone .bound Expected.bound) s₃ bs s') :
    Keeps .predicate s (.type a bs ls) s' := by
  intro hclosed
  simp only [All, Predicate.view, Part.all_node, Part.allEach_cons,
    Part.allEach_viewBounds] at hclosed
  have hsubject := (hls trivial).before (ha hclosed.2.1)
  have hall := hsubject.bounded (j := .ty) (fun z hz => hz) hcolon h (hbs hclosed.2.2)
  simpa [Predicate.print, Grammar.printBounded_toList, printBounds] using hall

/-- A predicate of a lifetime keeps its colon, even with nothing behind it. -/
theorem lifetimePredicate {l : Lifetime} (hcolon : s₁.Shifts .colon Expected.predicateLifetime t s₂)
    (h : Derives (.orNone (.lifetime Expected.afterLifetime) [.lifetime]) s₂ ls s')
    (hl : Keeps (.lifetime [.colon]) s l s₁)
    (hls : Keeps (.orNone (.lifetime Expected.afterLifetime) [.lifetime]) s₂ ls s') :
    Keeps .predicate s (.lifetime l ls) s' := by
  intro _
  have hall := (hl trivial).bounded (j := .lifetime [.colon]) (fun z hz => hz.1) hcolon h
    (hls fun _ _ => trivial)
  simpa [Predicate.print, Grammar.printBounded_toList, printLifetimes] using hall

theorem predicatesCons {ps : List Predicate} {q : Predicate}
    (hcomma : s₁.Shifts .comma Expected.predicate t s₂) (h : Derives .predicates s₂ ps s')
    (hq : Keeps .predicate s q s₁) (hps : Keeps .predicates s₂ ps s') :
    Keeps .predicates s (q :: ps) s' := by
  intro hclosed
  have hq' : Kept s s₁ q.print.toList (Finishes s₁) := hq (hclosed q (by simp))
  cases ps with
  | nil =>
    cases h with
    | predicatesNil => exact .comma hq' hcomma
  | cons q' ps =>
    have hps' := hps fun q hq => hclosed q (by simp [hq])
    have hquiet : Quiet s₂.rest (Text.join ", " ((q' :: ps).map Predicate.print)).toList := by
      simpa using h.quiet_ahead breaks_nil .nil
    rw [Holds, List.map_cons, List.map_cons, join_cons_cons]
    exact .cons hq' hcomma hps' hquiet

end Keeps

namespace Derives

/-- All that is read keeps its tokens. -/
theorem keeps {k : Phrase} {v : k.Value} (h : Derives k s v s') : Keeps k s v s' := by
  induction h with
  | path _ ih => exact .path ih
  | qualified hlt _ has hgt hsep hsegs ihself ihas ihsegs =>
    exact .qualified hlt has hgt hsep hsegs ihself ihas ihsegs
  | ref hamp hl hmut _ ih => exact .ref hamp hl hmut ih
  | ptr mutable hstar hkind _ ih => exact .ptr mutable hstar hkind ih
  | unit hopen hclose => exact .unit hopen hclose
  | tuple hopen _ hcomma helems ih ihs => exact .tuple hopen hcomma helems ih ihs
  | paren hopen _ hclose ih => exact .paren hopen hclose ih
  | slice hopen _ hclose ih => exact .slice hopen hclose ih
  | array n hopen _ hsemi hlength hclose ih => exact .array hopen hsemi hlength hclose ih
  | never h =>
    intro _
    simpa [Holds, print, Fits, Ty.print, Terminal.spelling] using Kept.symbol h (by decide)
  | implTrait hkw _ ih => exact .implTrait hkw ih
  | dynTrait hkw _ ih => exact .dynTrait hkw ih
  | fnPtr _ hsafety habi hfn hopen _ houtput ihls ihinputs ihoutput =>
    exact .fnPtr hsafety habi hfn hopen houtput ihls ihinputs ihoutput
  | segments hrooted _ ih => exact .segments hrooted ih
  | last _ hname _ _ ih => exact .last hname ih
  | more _ hname _ hsep hsegs ihargs ihsegs => exact .more hname hsep hsegs ihargs ihsegs
  | noArgs => exact .noArgs
  | angle hopen _ ih => exact .angle hopen ih
  | call hopen _ houtput ihinputs ihoutput => exact .call hopen houtput ihinputs ihoutput
  | turbofish hargs hsep hopen _ _ ih => exact .turbofish hargs hsep hopen ih
  | lifetimeArg _ ih => exact .lifetimeArg ih
  | binding hname heq _ ih => exact .binding hname heq ih
  | constraint hname hcolon _ ih => exact .constraint hname hcolon ih
  | constArg n h => exact fun _ => Grammar.constText_kept h
  | pathArg _ ih => exact .pathArg ih
  | tyArg _ _ ih => exact .tyArg ih
  | namedParam hname hcolon _ ih => exact .namedParam hname hcolon ih
  | pathParam _ ih => exact .pathParam ih
  | tyParam _ _ ih => exact fun hclosed => ih hclosed.2
  | outlives _ ih => exact .outlives ih
  | trait hmaybe _ _ ihls ihp => exact .trait hmaybe ihls ihp
  | unbound =>
    intro _
    simpa [Holds, print, Fits, printBinder] using Kept.nil
  | bound hfor hopen hls ih => exact .bound hfor hopen hls ih
  | lifetime h =>
    intro _
    simpa [Holds, print, Fits] using Kept.lifetime h
  | commasNil hk hclose => exact fun _ => .nil hclose (by cases hk <;> simp)
  | commasLast hk _ hclose ih => exact .commasLast hk hclose ih
  | commasCons hk _ hcomma has iha ihas => exact .commasCons hk hcomma has iha ihas
  | plusesLast hk _ _ ih => exact .plusesLast hk ih
  | plusesCons hk _ hplus has iha ihas => exact .plusesCons hk hplus has iha ihas
  | afterNone | orNone => exact fun _ => .nil
  | afterSome hk h _ ih => exact .afterSome hk h ih
  | orSome hk _ ih => exact .orSome hk ih
  | tyPredicate _ hcolon hbs iha ihbs =>
    exact .type hcolon hbs
      (fun _ => by simpa [Holds, print, Fits, printBinder] using Kept.nil) iha ihbs
  | boundPredicate _ _ _ hcolon hbs ihls iha ihbs => exact .type hcolon hbs ihls iha ihbs
  | lifetimePredicate _ hcolon hls ihl ihls => exact .lifetimePredicate hcolon hls ihl ihls
  | predicatesNil => exact fun _ => .nil _
  | predicatesLast _ _ ih => exact fun hclosed => .single (ih (hclosed _ (by simp)))
  | predicatesCons _ hcomma hps ihp ihps => exact .predicatesCons hcomma hps ihp ihps

/-- A phrase that has been read is kept in print, if nothing in it takes more tokens than are
printed. -/
theorem holds {k : Phrase} {v : k.Value} (h : Derives k s v s') (hclosed : k.All Label.Closed v) :
    k.Holds s v s' :=
  h.keeps hclosed

end Derives
end Phrase

/-! ## Whole texts -/

/-- The tokens of the text `x` are those in `ts`, but for a comma behind the last one and for what
may be left out. -/
def KeepsTokens (loses : Prop) (ts : List Token) (x : List Char) : Prop :=
  ∃ us m vs g, ts = us ++ m ∧ (m = [] ∨ ∃ c : Token, m = [c] ∧ c.kind = .comma) ∧ IsLayout g ∧
    Lexed x vs g ∧ Abridged loses us (vs.map Token.text)

/-- Predicates keep their tokens in print, and arguments are lost only in front of a turbofish that
does not stand right behind a name. -/
theorem Source.predicates_keep_tokens {src : Source} {ps : List Predicate}
    (h : src.predicates = .ok ps) (hclosed : ∀ p ∈ ps, p.view.All Label.Closed) : ∃ ts,
      Reading.parse (Grammar.predicates Expected.predicate) Expected.predicate src.chars =
        .ok ⟨ps, ts⟩ ∧ KeepsTokens (Doubled ts) ts
        (Text.join ", " (ps.map Predicate.print)).toList := by
  obtain ⟨ts, s', hparse, hps, -, htaken⟩ := derives_of_predicates h
  refine ⟨ts, hparse, ?_⟩
  obtain ⟨us, m, ws, htakes, hm, habr, vs, g, hg, hvs, rfl⟩ := hps.holds hclosed
  obtain rfl : ts = us ++ m := by
    have := htaken.symm.trans htakes.1
    simpa [Scan.start] using this
  refine ⟨us, m, vs, g, rfl, hm, hg, by simpa using hvs, habr.of_doubled fun hd => hd.mono ?_⟩
  exact (List.prefix_append us m).isInfix

/-- Commas, a binder and arguments that are left out. -/
theorem Source.predicates_keep_tokens_turbofish : ∃ ps,
    Source.predicates ⟨"a.rs", "T: for<> F<A>::<[(B,); 2],>,", none⟩ = .ok ps ∧
      (∀ p ∈ ps, p.view.All Label.Closed) ∧
      ∃ ts, Reading.parse (Grammar.predicates Expected.predicate) Expected.predicate
        (Source.chars ⟨"a.rs", "T: for<> F<A>::<[(B,); 2],>,", none⟩) = .ok ⟨ps, ts⟩ ∧
          KeepsTokens (Doubled ts) ts (Text.join ", " (ps.map Predicate.print)).toList := by
  have hlabels : (Source.predicates ⟨"a.rs", "T: for<> F<A>::<[(B,); 2],>,", none⟩).toOption.map
      (List.flatMap fun p => p.view.labels) = some [.tyPredicate [], .pathTy,
        .path false, .segment "T", .traitBound false [], .path false, .segment "F", .angleArgs true,
        .tyArg, .arrayTy "2", .tupleTy, .pathTy, .path false, .segment "B"] := by
    decide +kernel
  obtain ⟨ps, hps, hlabels⟩ := exists_of_map hlabels
  have hall : ∀ l ∈ ps.flatMap fun p => p.view.labels, l.Closed := by
    rw [hlabels]
    simpa [Label.Closed] using mt EndsInLineDoc.slash (by decide)
  have hclosed : ∀ p ∈ ps, p.view.All Label.Closed :=
    fun p hp l hl => hall l (List.mem_flatMap.mpr ⟨p, hp, hl⟩)
  exact ⟨ps, hps, hclosed, Source.predicates_keep_tokens hps hclosed⟩

/-- The arguments `<A>` are lost in front of the turbofish. -/
theorem Source.predicates_lose_arguments : ∃ p,
    Reading.parse (Grammar.predicates Expected.predicate) Expected.predicate
      "T: Foo<A>::<B>".toList =
        .ok p ∧
      ¬ KeepsTokens False p.tokens (Text.join ", " (p.value.map Predicate.print)).toList := by
  have hread : (Reading.parse (Grammar.predicates Expected.predicate) Expected.predicate
      "T: Foo<A>::<B>".toList).toOption.map (fun p =>
        (p.tokens.any (fun t => t.kind == .ident && t.text == ['A']),
          (Text.join ", " (p.value.map Predicate.print)).toList)) =
        some (true, "T: Foo::<B>".toList) := by
    decide +kernel
  obtain ⟨p, hp, hboth⟩ := exists_of_map hread
  -- The name `A` is among the tokens, but not in print.
  obtain ⟨hany, hprint⟩ := Prod.mk.inj hboth
  obtain ⟨t, ht, hname⟩ := List.any_eq_true.mp hany
  obtain ⟨hkind, htext⟩ : t.kind = .ident ∧ t.text = ['A'] := by simpa using hname
  refine ⟨p, hp, ?_⟩
  rintro ⟨us, m, vs, g, htokens, hm, -, hvs, habr⟩
  rw [htokens, List.mem_append] at ht
  -- What may be dropped at the end is a comma.
  have hmem : t ∈ us := by
    refine ht.resolve_right fun ht => ?_
    rcases hm with rfl | ⟨c, rfl, hc⟩
    · simp at ht
    · obtain rfl : t = c := by simpa using ht
      simp [hkind] at hc
  obtain ⟨v, hv, hvt⟩ := List.mem_map.mp (habr.text_mem hmem hkind)
  have hspelled : 'A' ∈ "T: Foo::<B>".toList := by
    obtain ⟨l, r, rfl⟩ := List.append_of_mem hv
    rw [← hprint, hvs.spelled]
    simp [hvt, htext]
  simp at hspelled

end ShadowImpl
