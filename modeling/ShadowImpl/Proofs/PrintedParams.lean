import ShadowImpl.Proofs.Literals
import ShadowImpl.Proofs.Projections

/-!
# Printed parameters

Generic parameters without bounds, as they are written in a generated block: by name, and in a
method with their defaults. What a parameter was bounded by is a predicate there.
-/

namespace ShadowImpl

open Filter Lexeme Recogniser Reading

variable {s s' : Scan} {e : Expectation} {g y z r : List Char} {t : Token} {p : GenericParam}
    {n : Nat}
  {name : String}

/-! ## Parameters that are read -/

/-- Between two scans stands a generic parameter. Of what it is made, only the end counts. -/
inductive Scan.Param (s s' : Scan) : GenericParam → Prop
  | type {t : Token} {s₁ : Scan} {bs : List Bound} {default : Option Ty}
    (hname : s.Shifts .ident Expected.afterTypeParam t s₁)
    (hbs : bs ≠ [] → ∃ s₂ s₃, Phrase.Derives (.orNone .bound Expected.bound) s₂ bs s₃ ∧
      s₃.Reaches s')
    (hdefault : ∀ a ∈ default, ∃ s₂, Phrase.Derives .ty s₂ a s') :
    Param s s' (.type (String.ofList t.text) bs default)
  | lifetime {t : Token} {s₁ : Scan} {ls : List Lifetime}
    (hl : s.Shifts .lifetime Expected.afterLifetimeParam t s₁)
    (hls : ls ≠ [] → ∃ s₂, Phrase.Derives
      (.orNone (.lifetime Expected.afterLifetime) [.lifetime]) s₂ ls s') :
    Param s s' (.lifetime ⟨String.ofList t.text⟩ ls)
  | const {t u : Token} {s₁ s₂ s₃ s₄ : Scan} {a : Ty} {default : Option GenericArg}
    (hconst : s.Shifts .kwConst Expected.name t s₁) (hname : s₁.Shifts .ident [.colon] u s₂)
    (ha : Phrase.Derives .ty s₃ a s₄) (h₄ : s₄.Reaches s')
    (hdefault : ∀ d ∈ default, (∃ s₅ q, d = .ty (.path q) ∧ Phrase.Derives .path s₅ q s') ∨
      ∃ n s₅ text, d = .const text ∧ (Grammar.constText n).run s₅ = .ok (text, s')) :
    Param s s' (.const (String.ofList u.text) a default)

/-- Behind a type, in front of a default. -/
theorem Continues.eq_front (hq : Quiet s.rest r) :
    Continues s (' ' :: (Terminal.eq.spelling ++ r)) := by
  have hlead : (' ' :: (Terminal.eq.spelling ++ r)).dropWhile isLayout = '=' :: r := rfl
  refine ⟨.of_lead (by simp [Breaks, isBreak]) hlead (by decide), fun ho => ?_, fun ho => ?_,
    hq.text (w := ' ' :: Terminal.eq.spelling) (by decide)⟩
  all_goals
    rw [Opens, hlead] at ho
    simp [Terminal.spelling, List.cons_prefix_cons] at ho

namespace Grammar

theorem boundsOrNone_derives {bs : List Bound} (h : (boundsOrNone n).run s = .ok (bs, s')) :
    Phrase.Derives (.orNone .bound Expected.bound) s bs s' := by
  rw [boundsOrNone, run_peek_bind] at h
  split at h
  · exact .orSome .bounds ((TypesDerived.all n).bounds h)
  · obtain ⟨rfl, rfl⟩ := of_run_pure h
    exact .orNone .bounds (mt List.contains_iff_mem.mpr ‹_›)

theorem lifetimesOrNone_derives {ls : List Lifetime}
    (h : (lifetimesOrNone n).run s = .ok (ls, s')) :
    Phrase.Derives (.orNone (.lifetime Expected.afterLifetime) [.lifetime]) s ls s' := by
  rw [lifetimesOrNone, run_peek_bind] at h
  split at h
  · exact .orSome .lifetimes (plusList_derives .lifetimes lifetime_derives h)
  · obtain ⟨rfl, rfl⟩ := of_run_pure h
    exact .orNone .lifetimes (by simpa using ‹_›)

theorem typeParam_param (h : (typeParam n).run s = .ok (p, s')) : s.Param s' p := by
  rw [typeParam] at h
  obtain ⟨t, s₁, hname, h⟩ := shifts_of_token h
  obtain ⟨bounded, s₂, -, h⟩ := run_bind_eq_ok.mp h
  obtain ⟨bs, s₃, hbs, h⟩ : ∃ bs s₃, (bs ≠ [] → ∃ s₂ s₃',
      Phrase.Derives (.orNone .bound Expected.bound) s₂ bs s₃' ∧ s₃'.Reaches s₃) ∧
      (Reading.optional .eq Expected.type >>= fun c => if c = true then
        ty n >>= fun t' => pure (GenericParam.type (String.ofList t.text) bs (some t'))
        else pure (GenericParam.type (String.ofList t.text) bs none)).run s₃ = .ok (p, s') := by
    dsimp only at h
    split at h
    · obtain ⟨bs, s₃, hbs, h⟩ := run_bind_eq_ok.mp h
      exact ⟨bs, s₃, fun _ => ⟨s₂, s₃, boundsOrNone_derives hbs, .refl _⟩, h⟩
    · exact ⟨[], s₂, by simp, h⟩
  obtain ⟨c, s₄, hc, h⟩ := flag_of_optional h
  cases hc with
  | absent =>
    obtain ⟨rfl, rfl⟩ := of_run_pure h
    exact .type hname hbs (by simp)
  | present heq =>
    obtain ⟨a, s₅, ha, h⟩ := run_bind_eq_ok.mp h
    obtain ⟨rfl, rfl⟩ := of_run_pure h
    have ha := (TypesDerived.all n).ty ha
    refine .type hname (fun hne => ?_) (by simpa using ⟨s₄, ha⟩)
    obtain ⟨s₂', s₃', hderives, hreach⟩ := hbs hne
    exact ⟨s₂', s₃', hderives, (hreach.trans heq.reaches).trans ha.reaches⟩

theorem lifetimeParam_param (h : (lifetimeParam n).run s = .ok (p, s')) : s.Param s' p := by
  rw [lifetimeParam] at h
  obtain ⟨t, s₁, hname, h⟩ := shifts_of_token h
  obtain ⟨bounded, s₂, -, h⟩ := run_bind_eq_ok.mp h
  split at h
  · obtain ⟨ls, s₃, hls, h⟩ := run_bind_eq_ok.mp h
    obtain ⟨rfl, rfl⟩ := of_run_pure h
    exact .lifetime hname fun _ => ⟨s₂, lifetimesOrNone_derives hls⟩
  · obtain ⟨rfl, rfl⟩ := of_run_pure h
    exact .lifetime hname (by simp)

theorem constParam_param (h : (constParam n).run s = .ok (p, s')) : s.Param s' p := by
  rw [constParam] at h
  obtain ⟨t, s₁, hconst, h⟩ := shifts_of_token h
  obtain ⟨u, s₂, hname, h⟩ := shifts_of_token h
  obtain ⟨v, s₃, -, h⟩ := shifts_of_token h
  obtain ⟨a, s₄, ha, h⟩ := run_bind_eq_ok.mp h
  have ha := (TypesDerived.all n).ty ha
  obtain ⟨c, s₅, hc, h⟩ := flag_of_optional h
  cases hc with
  | absent =>
    obtain ⟨rfl, rfl⟩ := of_run_pure h
    exact .const hconst hname ha (.refl _) (by simp)
  | present heq =>
    rw [if_pos rfl, run_peek_bind] at h
    split at h
    iterate 2
      · obtain ⟨q, s₆, hq, h⟩ := run_bind_eq_ok.mp h
        obtain ⟨rfl, rfl⟩ := of_run_pure h
        have hq := (TypesDerived.all n).path hq
        exact .const hconst hname ha (heq.reaches.trans hq.reaches) (by simpa using ⟨s₅, hq⟩)
    · obtain ⟨text, s₆, htext, h⟩ := run_bind_eq_ok.mp h
      obtain ⟨rfl, rfl⟩ := of_run_pure h
      exact .const hconst hname ha (heq.reaches.trans (Scan.reaches_of_run htext))
        (by simpa using ⟨n, s₅, htext⟩)

theorem param_param (h : (param n).run s = .ok (p, s')) : s.Param s' p := by
  rw [param, run_peek_bind] at h
  split at h
  · exact constParam_param h
  · exact lifetimeParam_param h
  · exact typeParam_param h

/-! ## Parameters in print -/

/-- In front of a comma or of the bracket that closes a parameter list. -/
def ParamEnds (z : List Char) : Prop :=
  ∃ κ ∈ [Terminal.comma, .gt], ∃ r, z = κ.spelling ++ r

theorem ParamEnds.kind (hz : ParamEnds z) (he : finds e .comma = true ∧ finds e .gt = true) :
    (Next.of e z).kind ∈ [Terminal.comma, .gt] := by
  obtain ⟨κ, hκ, r, rfl⟩ := hz
  have hfinds : finds e κ = true := by
    simp only [List.mem_cons, List.not_mem_nil, or_false] at hκ
    rcases hκ with rfl | rfl
    · exact he.1
    · exact he.2
  rw [of_symbol_front hfinds]
  exact hκ

theorem ParamEnds.continues (hz : ParamEnds z) (hs : Shuts s.rest) : Continues s z := by
  obtain ⟨κ, hκ, r, rfl⟩ := hz
  simp only [List.mem_cons, List.not_mem_nil, or_false] at hκ
  rcases hκ with rfl | rfl
  · exact .front (c := ',') (by simp) (hs.quiet _)
  · exact .front (c := '>') (by simp) (hs.quiet _)

theorem ParamEnds.breaks (hz : ParamEnds z) : Breaks z := by
  obtain ⟨κ, hκ, r, rfl⟩ := hz
  simp only [List.mem_cons, List.not_mem_nil, or_false] at hκ
  rcases hκ with rfl | rfl <;> simp [Breaks, Terminal.spelling, isBreak]

/-- A parameter as one of a list, in front of `z`. -/
def ParamRead (p : GenericParam) (z : List Char) : Prop :=
  Listed param [.comma, .gt] (· ≠ .gt) Expected.param p.print.toList p z

theorem ParamRead.lifetime {l : Lifetime} (hl : IsLifetime l.name.toList) (hz : ParamEnds z) :
    ParamRead (.lifetime l []) z := by
  intro g hg
  have hof := of_lifetime (e := Expected.param) (z := z) hl (by decide) hg hz.breaks
  have hends := hz.kind (e := Expected.afterLifetimeParam) (by decide)
  have hprint : (GenericParam.lifetime l []).print.toList = l.name.toList := by
    simp [GenericParam.print]
  rw [hprint]
  refine ⟨by rw [kind_of_eq hof]; decide, Expected.afterLifetimeParam, by decide,
    .of_forall fun n => ?_⟩
  rw [param]
  refine .peek_token hof ?_
  rw [lifetimeParam]
  refine .token hof (.absent ?_ ?_)
  · intro hcolon
    rw [hcolon] at hends
    simp at hends
  · rw [if_neg (by simp), String.ofList_toList]
    exact .pure _

/-- The default behind a type parameter. -/
def defaultChars : Option Ty → List Char
  | none => []
  | some t => ' ' :: (Terminal.eq.spelling ++ ' ' :: t.print.toList)

/-- The default of a type parameter, if it has one, in front of the end. -/
theorem default_reads (name : String) {default : Option Ty} (hz : ParamEnds z)
    (hdefault : ∀ t ∈ default, Typed t z) : Breaks (defaultChars default ++ z) ∧
    (Next.of Expected.afterTypeParam (defaultChars default ++ z)).kind ≠ .colon ∧
    ∃ e', (∀ κ ∈ [Terminal.comma, .gt], finds e' κ = true) ∧ ∀ᶠ n in atTop,
      (optional .eq Expected.type >>= fun c => if c = true then
        ty n >>= fun t => pure (GenericParam.type name [] (some t))
        else pure (GenericParam.type name [] none)).Reads Expected.afterTypeParam
          (defaultChars default ++ z) (.type name [] default) e' z := by
  cases default with
  | none =>
    have hends := hz.kind (e := Expected.afterTypeParam) (by decide)
    refine ⟨hz.breaks, ?_, Expected.afterTypeParam, by decide, .of_forall fun n => .absent ?_ ?_⟩
    · intro hk
      rw [show (Next.of Expected.afterTypeParam z).kind = .colon from hk] at hends
      simp at hends
    · intro hk
      rw [show (Next.of Expected.afterTypeParam z).kind = .eq from hk] at hends
      simp at hends
    · rw [if_neg (by simp)]
      exact .pure _
  | some t =>
    have heq : Next.of Expected.afterTypeParam (defaultChars (some t) ++ z) =
        .token ⟨.eq, [' '], Terminal.eq.spelling⟩ ([' '] ++ (t.print.toList ++ z)) := by
      rw [defaultChars, List.cons_append, List.append_assoc]
      exact of_symbol (g := [' ']) (κ := .eq) (by decide) isLayout_space
    refine ⟨by simp [defaultChars, Breaks, isBreak], ?_, Expected.afterType, by decide, ?_⟩
    · rw [kind_of_eq heq]
      decide
    · filter_upwards [(hdefault t rfl).reads (e := Expected.type)
        (by decide) isLayout_space] with n hn
      refine .present heq ?_
      rw [if_pos rfl]
      exact .map hn

theorem ParamRead.type {default : Option Ty} (hname : IsName name.toList)
    (hident : Terminal.ofName Expected.param name.toList = .ident) (hz : ParamEnds z)
    (hdefault : ∀ t ∈ default, Typed t z) : ParamRead (.type name [] default) z := by
  intro g hg
  have hprint : (GenericParam.type name [] default).print.toList ++ z =
      name.toList ++ (defaultChars default ++ z) := by
    cases default <;> simp [GenericParam.print, defaultChars, Terminal.spelling]
  obtain ⟨hbreaks, hcolon, e', hends, hreads⟩ := default_reads name hz hdefault
  have hof := of_name (z := defaultChars default ++ z) hname (e := Expected.param)
    (by decide) hg hbreaks
  rw [hident] at hof
  rw [hprint]
  refine ⟨by rw [kind_of_eq hof]; decide, e', hends, ?_⟩
  filter_upwards [hreads] with n hn
  rw [param]
  refine .peek_token hof ?_
  rw [typeParam]
  refine .token hof (.absent hcolon ?_)
  rw [if_neg (by simp), String.ofList_toList]
  exact hn

/-- A default of a constant parameter in front of `z`. -/
def ConstDefaultRead : GenericArg → List Char → Prop
  | .ty (.path q), z => Pathed q z
  | .const w, z => ∀ g, IsLayout g →
      (Next.of Expected.constDefault (g ++ (w.toList ++ z))).kind ∈ constStarts ∧
      ∃ e', (∀ κ ∈ [Terminal.comma, .gt], finds e' κ = true) ∧ ∀ᶠ n in atTop,
        (constText n).Reads Expected.constDefault (g ++ (w.toList ++ z)) w e' z
  | _, _ => False

/-- The default behind a constant parameter. -/
def constChars : Option GenericArg → List Char
  | none => []
  | some a => ' ' :: (Terminal.eq.spelling ++ ' ' :: a.print.toList)

/-- A default of a constant from behind its `=` on: a path, or another constant. -/
theorem givenDefault_reads (name : String) (a : Ty) {d : GenericArg} (h : ConstDefaultRead d z) :
    ∃ e', (∀ κ ∈ [Terminal.comma, .gt], finds e' κ = true) ∧ ∀ᶠ n in atTop,
      (Reading.peek >>= fun t => match t with
        | .ident | .pathSep => path n >>= fun q =>
          pure (GenericParam.const name a (some (.ty (.path q))))
        | _ => constText n >>= fun text =>
          pure (GenericParam.const name a (some (.const text)))).Reads Expected.constDefault
        ([' '] ++ (d.print.toList ++ z)) (.const name a (some d)) e' z := by
  unfold ConstDefaultRead at h
  split at h
  · rename_i q
    have hprint : (GenericArg.ty (.path q)).print = q.print := by
      rw [GenericArg.print, Ty.print_path]
    rw [hprint]
    obtain ⟨hkind, hreads⟩ := h Expected.constDefault (by decide) (by decide) [' '] isLayout_space
    refine ⟨Expected.afterType, by decide, ?_⟩
    filter_upwards [hreads] with n hn
    refine .peek hkind ?_
    split
    · exact .map hn
    · exact .map hn
    · split at * <;> simp_all
  · rename_i text
    have hprint : (GenericArg.const text).print = text := by
      rw [GenericArg.print]
    rw [hprint]
    obtain ⟨hkind, e', hends, hreads⟩ := h [' '] isLayout_space
    refine ⟨e', hends, ?_⟩
    filter_upwards [hreads] with n hn
    refine .peek rfl ?_
    -- no constant begins like a path
    split
    · rename_i hk
      rw [hk] at hkind
      simp [constStarts] at hkind
    · rename_i hk
      rw [hk] at hkind
      simp [constStarts] at hkind
    · exact .map hn
  · exact h.elim

theorem constDefault_reads (name : String) (a : Ty) {default : Option GenericArg} (hz : ParamEnds z)
    (hdefault : ∀ d ∈ default, ConstDefaultRead d z) :
    ∃ e', (∀ κ ∈ [Terminal.comma, .gt], finds e' κ = true) ∧ ∀ᶠ n in atTop,
      (optional .eq Expected.constDefault >>= fun c => if c = true then
        Reading.peek >>= fun t => match t with
          | .ident | .pathSep => path n >>= fun q =>
            pure (GenericParam.const name a (some (.ty (.path q))))
          | _ => constText n >>= fun text => pure (GenericParam.const name a (some (.const text)))
        else pure (GenericParam.const name a none)).Reads Expected.afterType
          (constChars default ++ z) (.const name a default) e' z := by
  cases default with
  | none =>
    have hends := hz.kind (e := Expected.afterType) (by decide)
    refine ⟨Expected.afterType, by decide, .of_forall fun n => .absent ?_ ?_⟩
    · intro hk
      rw [show (Next.of Expected.afterType z).kind = .eq from hk] at hends
      simp at hends
    · rw [if_neg (by simp)]
      exact .pure _
  | some d =>
    have heq : Next.of Expected.afterType (constChars (some d) ++ z) =
        .token ⟨.eq, [' '], Terminal.eq.spelling⟩ ([' '] ++ (d.print.toList ++ z)) := by
      rw [constChars, List.cons_append, List.append_assoc]
      exact of_symbol (g := [' ']) (κ := .eq) (by decide) isLayout_space
    obtain ⟨e', hends, hreads⟩ := givenDefault_reads name a (hdefault d rfl)
    refine ⟨e', hends, ?_⟩
    filter_upwards [hreads] with n hn
    refine .present heq ?_
    rw [if_pos rfl]
    exact hn

theorem ParamRead.const {default : Option GenericArg} {a : Ty} (hname : IsName name.toList)
    (ha : Typed a (constChars default ++ z)) (hz : ParamEnds z)
    (hdefault : ∀ d ∈ default, ConstDefaultRead d z) : ParamRead (.const name a default) z := by
  intro g hg
  have hprint : (GenericParam.const name a default).print.toList ++ z =
      Terminal.kwConst.spelling ++ ([' '] ++ (name.toList ++ (':' :: ([' '] ++ (a.print.toList ++
        (constChars default ++ z)))))) := by
    cases default <;> simp [GenericParam.print, constChars, Terminal.spelling]
  obtain ⟨e', hends, hreads⟩ := constDefault_reads name a hz hdefault
  have hconst := of_keyword (κ := .kwConst) (e := Expected.param) (g := g)
      (z := [' '] ++ (name.toList ++
    (':' :: ([' '] ++ (a.print.toList ++ (constChars default ++ z)))))) (by decide)
      (by decide) (by decide)
    hg (by simp [Breaks, isBreak])
  have hof := of_name (e := Expected.name) (g := [' ']) (z := ':' :: ([' '] ++ (a.print.toList ++
    (constChars default ++ z)))) hname (by decide) isLayout_space (by simp [Breaks, isBreak])
  rw [show Terminal.ofName Expected.name name.toList = .ident from rfl] at hof
  rw [hprint]
  refine ⟨by rw [kind_of_eq hconst]; decide, e', hends, ?_⟩
  filter_upwards [ha.reads (e := Expected.type) (by decide) isLayout_space, hreads] with n hn hreads
  rw [param]
  refine .peek_token hconst ?_
  rw [constParam]
  refine .token hconst
    (.token hof (.token (of_colon (g := []) (by decide) isLayout_nil (by simp)) ?_))
  rw [String.ofList_toList]
  exact hn.bind hreads

end Grammar

/-! ## Reading parameters again -/

/-- The word is no keyword where it is read as a name. -/
theorem ofName_of_token {x : List Char} (h : Next.of e x = .token t y) (ht : t.kind = .ident) :
    Terminal.ofName e t.text = .ident := by
  obtain ⟨-, v, hkind, hv⟩ := Next.of_eq_token h
  obtain rfl : v = .ident := by
    by_contra hne
    rw [Terminal.settle, if_neg hne] at hkind
    exact hne (hkind.symm.trans ht)
  rw [Terminal.settle, if_pos rfl] at hkind
  exact hkind.symm.trans ht

/-- The types of the parameter are plain. -/
def GenericParam.Plain : GenericParam → Prop
  | type _ _ default => ∀ t ∈ default, t.view.All Label.Plain
  | lifetime _ _ => True
  | const _ ty default => ty.view.All Label.Plain ∧ ∀ a ∈ default, a.view.All Label.Plain

/-- A parameter as the subject of a predicate, and what it is projected to. -/
theorem IsPlainName.ofIdent_typed (hname : IsPlainName name) (hr : r.head? ≠ some ':')
    (projected : List String) : Grammar.Typed ((Ty.ofIdent name).project projected) (':' :: r) := by
  have hsegmented : ∀ {w : String}, IsPlainName w → Grammar.Segmented [⟨w, none⟩] (':' :: r) :=
    fun hw => .mk hw (Directive.ends_colon r).argsRead (.nil (Directive.kind_colon_ne hr))
  rw [Ty.ofIdent, Ty.project_path]
  split
  · rename_i ident hident
    obtain rfl : name = ident := Option.some.inj hident
    split
    · refine Grammar.Pathed.typed (Grammar.Segmented.pathed (.mk hname ?_ (.cons ?_)) false)
      · exact (Ends.of_sep (r := "Shadowed".toList ++ ':' :: r)).argsRead
      · exact hsegmented Phrase.isPlainName_shadowed
    · exact ((hsegmented hname).pathed false).typed
  · exact ((hsegmented hname).pathed false).typed

namespace Scan.Param

open Grammar

theorem withoutDefault (h : s.Param s' p) : s.Param s' p.withoutDefault := by
  cases h with
  | type hname hbs => exact .type hname hbs (by simp)
  | lifetime hl hls => exact .lifetime hl hls
  | const hconst hname ha h₄ => exact .const hconst hname ha h₄ (by simp)

/-- Without its bounds, a parameter is read again. -/
theorem read (h : s.Param s' p) (hs : s.expected = Expected.param) (hshuts : Shuts s'.rest)
    (hplain : p.Plain) (hz : ParamEnds z) : ParamRead p.withoutBounds z := by
  cases h with
  | type hname _ hdefault =>
    refine .type (by simpa using isName_of_shifts hname) ?_ hz fun a ha => ?_
    · rw [String.toList_ofList, ← hs]
      exact ofName_of_token hname.next hname.kind
    · obtain ⟨s₂, hderives⟩ := hdefault a ha
      have hlegible := hderives.legible (k := .ty) (hplain a ha) [] (hz.continues hshuts)
      rwa [Phrase.project_nil] at hlegible
  | lifetime hl => exact .lifetime (by simpa using isLifetime_of_shifts hl) hz
  | @const _ _ _ _ _ s₄ a default _ hname ha h₄ hdefault =>
    have hs₄ := hshuts.of_suffix h₄.rest_suffix
    -- Behind the type of a constant stands the `=` of its default, or what ends the parameter.
    have hlegible := ha.legible (k := .ty) hplain.1 [] (z := constChars default ++ z) (by
      cases default with
      | none => exact hz.continues hs₄
      | some d =>
        rw [constChars, List.cons_append, List.append_assoc]
        exact .eq_front (hs₄.quiet _))
    rw [Phrase.project_nil] at hlegible
    refine .const (by simpa using isName_of_shifts hname) hlegible hz fun d hd => ?_
    rcases hdefault d hd with ⟨s₅, ⟨segs, rooted⟩, rfl, hq⟩ | ⟨n, s₅, w, rfl, hw⟩
    · have hplain' : (Path.view ⟨segs, rooted⟩).All Label.Plain := by
        have := hplain.2 _ hd
        simpa [GenericArg.view, Ty.view, Label.Plain] using this
      have hpath := hq.legible (k := .path) hplain' [] (hz.continues hshuts)
      rw [Phrase.project_nil] at hpath
      exact Segmented.pathed hpath rooted
    · exact fun g hg => (constText_again hw).2 z hz.breaks (hshuts.quiet z) _
        (by simp [constPlaces]) g hg

/-- What the bounds of a parameter state is legible as a predicate. -/
theorem stated_legible (h : s.Param s' p) (hshuts : Shuts s'.rest) (projected : List String) :
    ∀ q ∈ p.stated, q.view.All Label.Plain → (q.project projected).Legible := by
  cases h with
  | @type t s₁ bs default hname hbs =>
    cases bs with
    | nil => simp [GenericParam.stated]
    | cons b bs =>
      obtain ⟨s₂, s₃, hderives, hreach⟩ := hbs (by simp)
      simp only [GenericParam.stated, List.mem_singleton, forall_eq]
      intro hplain z hz
      have hfinishes : Finishes s₃ z := ⟨hz, (hshuts.of_suffix hreach.rest_suffix).quiet z⟩
      have hname' : IsPlainName (String.ofList t.text) := by
        refine Phrase.isPlainName_of_shifts hname ?_
        simp only [Predicate.view, Ty.ofIdent, Path.ofIdent, Ty.view, Path.view, viewSegments,
          Part.all_node, Part.allEach_cons, Label.Plain] at hplain
        simpa using hplain.2.1.2.1.2.1.1
      have hbounds := hderives.legible (k := .orNone .bound Expected.bound) (by
        simp only [Predicate.view, Part.all_node, Part.allEach_cons,
          Part.allEach_viewBounds] at hplain
        exact hplain.2.2) projected hfinishes
      rw [Predicate.project, projectBounds_eq_map]
      exact .type (hname'.ofIdent_typed (by simp) projected) (by simp)
        (by simp) hbounds hfinishes.head_ne
  | @lifetime t s₁ ls hl hls =>
    cases ls with
    | nil => simp [GenericParam.stated]
    | cons l ls =>
      obtain ⟨s₂, hderives⟩ := hls (by simp)
      simp only [GenericParam.stated, List.mem_singleton, forall_eq]
      intro hplain z hz
      have hfinishes : Finishes s' z := ⟨hz, hshuts.quiet z⟩
      have hlegible := hderives.legible (fun _ _ => trivial) [] hfinishes
      rw [Phrase.project_nil] at hlegible
      refine .lifetime (by simpa using isLifetime_of_shifts hl) hlegible
        hfinishes.continues.ends.breaks hfinishes.head_ne fun e hmem => ?_
      have hall : ∀ κ ∈ [Terminal.eof, .comma, .semi, .unknown],
          κ ∉ [Terminal.plus, .lifetime] := by
        decide
      exact hall _ (hfinishes.kind e) hmem
  | const => simp [GenericParam.stated]

end Scan.Param

namespace Grammar

theorem commaList_forall {α : Type} {P : α → Prop} {element : Reading α} {close : Terminal}
    {e' : Expectation}
    (hP : ∀ {s a s₁}, s.expected = e → element.run s = .ok (a, s₁) → s₁.Reaches s' → P a)
    (hs : s.expected = e) {as : List α}
    (h : (commaList close e e' element n).run s = .ok (as, s')) : ∀ a ∈ as, P a := by
  induction n generalizing s as with
  | zero => simp [commaList] at h
  | succ n ih =>
    rw [commaList] at h
    obtain ⟨closed, s₁, hclosed, h⟩ := flag_of_optional h
    cases hclosed with
    | present hclose =>
      obtain ⟨rfl, -⟩ := of_run_pure h
      simp
    | absent =>
      obtain ⟨a, s₂, ha, h⟩ := run_bind_eq_ok.mp h
      have hreach := Scan.reaches_of_run h
      obtain ⟨more, s₃, hmore, h⟩ := flag_of_optional h
      cases hmore with
      | present hcomma =>
        obtain ⟨as', s₄, has, h⟩ := run_bind_eq_ok.mp h
        obtain ⟨rfl, rfl⟩ := of_run_pure h
        rw [List.forall_mem_cons]
        exact ⟨hP hs ha hreach, ih hcomma.expected has⟩
      | absent =>
        -- Without a comma the list has to be closed.
        obtain ⟨t, s₄, hclose, h⟩ := shifts_of_token h
        obtain ⟨rfl, rfl⟩ := of_run_pure h
        rw [List.forall_mem_singleton]
        exact hP hs ha hreach

theorem params_param {ps : List GenericParam} (h : (params n).run s = .ok (ps, s')) :
    ∀ p ∈ ps, ∃ s₁ s₂ : Scan, s₁.expected = Expected.param ∧ s₁.Param s₂ p ∧ s₂.Reaches s' := by
  rw [params] at h
  obtain ⟨listed, s₁, hlisted, h⟩ := flag_of_optional h
  cases hlisted with
  | absent =>
    obtain ⟨rfl, -⟩ := of_run_pure h
    simp
  | present hopen =>
    exact commaList_forall (fun hs ha hreach => ⟨_, _, hs, param_param ha, hreach⟩) hopen.expected h

/-- A parameter list in print, in front of `z`. -/
theorem params_reads {ps : List GenericParam} (h : ∀ p ∈ ps, ∀ z, ParamEnds z → ParamRead p z)
    (he : finds e .lt = true) (hz : ps = [] → (Next.of e z).kind ≠ .lt) : ∀ᶠ n in atTop,
      (params n).Reads e ((printParamList (ps.map GenericParam.print)).toList ++ z) ps
        (if ps = [] then e else Expected.afterParams) z := by
  cases ps with
  | nil =>
    refine .of_forall fun n => ?_
    rw [params]
    refine .absent (hz rfl) ?_
    rw [if_neg (by simp)]
    exact .pure _
  | cons p ps =>
    have hlisted : CommaListed param .gt Expected.param Expected.afterParams
        (Text.join ", " ((p :: ps).map GenericParam.print)).toList (p :: ps) z := by
      -- By induction on the parameters behind the first one: the comma or the `>` ends each.
      induction ps generalizing p with
      | nil => exact .single (h p (by simp) _ ⟨.gt, by simp, z, rfl⟩) (by decide)
      | cons p' ps ih =>
        rw [List.map_cons, List.map_cons, join_cons_cons]
        exact .cons (h p (by simp) _ ⟨.comma, by simp, _, rfl⟩)
          (ih p' (fun q hq => h q (by simp [hq])) (by simp))
    have htext : (printParamList ((p :: ps).map GenericParam.print)).toList ++ z =
        Terminal.lt.spelling ++ ((Text.join ", " ((p :: ps).map GenericParam.print)).toList ++
        (Terminal.gt.spelling ++ z)) := by
      simp [printParamList, Terminal.spelling]
    rw [htext, if_neg (by simp)]
    filter_upwards [hlisted [] isLayout_nil, eventually_gt_atTop (p :: ps).length] with n hn hlt
    rw [params]
    refine .present (of_symbol_front he) ?_
    rw [if_pos rfl]
    exact hn n hlt

end Grammar
end ShadowImpl
