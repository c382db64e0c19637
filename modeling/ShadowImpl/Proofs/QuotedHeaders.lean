import ShadowImpl.Proofs.Constraints
import ShadowImpl.Proofs.QuotedBodies
import ShadowImpl.Shadow

/-!
# Quoted headers

In the header of a generated block stand the generics without their bounds, the text of the trait,
the shadow of the self type and the where clause. Of these the text of the trait is a quotation, and
the others are printed.
-/

namespace ShadowImpl

open Filter Lexeme Recogniser Reading Grammar

variable {σ : Type} {s s' s₁ : Scan} {n : Nat} {e e' : Expectation} {g y z r : List Char} {c : Char}
    {t : Token}

/-! ## Shadows -/

theorem isName_shadow {name : List Char} (h : IsName name) (hraw : ¬ ['r', '#'] <+: name) :
    IsName ("Shadow".toList ++ name) := by
  -- A name that is not raw is a word.
  have hword : word name = some name.length := by
    rw [IsName] at h
    unfold ident at h
    split at h
    · exact absurd ⟨_, rfl⟩ hraw
    · exact h
  cases name with
  | nil => simp [word] at hword
  | cons c r =>
    rw [word] at hword
    split at hword
    · rename_i hc
      have hc' : isWordChar c = true := by
        simp only [isWordStart, isWordChar, Char.isAlphanum, Bool.or_eq_true] at hc ⊢
        tauto
      have hrun : Recogniser.run isWordChar (c :: r) = (c :: r).length := by
        simp only [Option.some.injEq, List.length_cons] at hword
        simp only [Recogniser.run, List.takeWhile_cons, hc', if_true, List.length_cons] at hword ⊢
        omega
      have hshadow : Recogniser.run isWordChar ("hadow".toList ++ c :: r) =
          5 + (c :: r).length := by
        rw [run_append, if_pos (by decide), hrun]
        rfl
      change word ('S' :: ("hadow".toList ++ c :: r)) = _
      rw [word, if_pos (by decide), hshadow]
      simp
      omega
    · simp at hword

theorem isPlainName_shadow {name : String} (h : IsName name.toList)
    (hraw : ¬ ['r', '#'] <+: name.toList) : IsPlainName ("Shadow" ++ name) where
  isName := by
    rw [String.toList_append]
    exact isName_shadow h hraw
  ne := by
    have hall : ∀ κ ∈ Terminal.keywords, κ.spelling.head? ≠ some 'S' := by decide
    intro κ hκ hspelling
    refine hall κ hκ ?_
    rw [hspelling, String.toList_append]
    rfl

/-- In front of a text that starts with a break, and goes on with no part of a type. -/
theorem Continues.of_lead (hs : Shuts s.rest) (hz : Breaks z)
    (hlead : z.dropWhile isLayout = c :: r) (hc : c ∉ ['/', '<', '(', '-', '+', ':']) :
    Continues s z := by
  simp only [List.mem_cons, List.not_mem_nil, or_false, not_or] at hc
  refine ⟨.of_lead hz hlead (by simp [hc]), fun ho => ?_, fun ho => ?_, hs.quiet z⟩
  · rw [Opens, hlead] at ho
    exact absurd (List.cons_prefix_cons.mp ho).1.symm hc.2.2.2.2.1
  · rw [Opens, hlead] at ho
    exact absurd (List.cons_prefix_cons.mp ho).1.symm hc.2.2.2.2.2

/-- The last segment is no raw name. -/
def NotRaw (segs : List Segment) : Prop :=
  ∀ last ∈ segs.getLast?, ¬ ['r', '#'] <+: last.ident.toList

/-- The shadow of a path that has been read is read in print. -/
theorem Phrase.Derives.shadow_segmented {segs shadow : List Segment}
    (h : Derives .segments s segs s') (hs : Shuts s'.rest)
    (hshadow : shadowSegments segs = some shadow) (hraw : NotRaw segs)
    (hplain : Part.AllEach Label.Plain (viewSegments shadow)) (hz : Continues s' z) :
    Grammar.Segmented shadow z := by
  -- Only the last segment is renamed.
  induction segs generalizing s shadow with
  | nil => simp [shadowSegments] at hshadow
  | cons seg segs ih =>
    cases h with
    | last he hname hargs hend =>
      obtain rfl := Option.some.inj hshadow
      simp only [viewSegments, Part.allEach_cons, Part.all_node] at hplain
      have hargs' := hargs.legible hplain.1.2 [] hz
      rw [Phrase.project_nil] at hargs'
      refine .mk (isPlainName_shadow (by simpa using isName_of_shifts hname) ?_) hargs'
        (.nil (hz.kind_ne_sep hend))
      exact hraw _ rfl
    | more he hname hargs hsep hsegs =>
      rw [shadowSegments.eq_3 _ _ (by simpa using hsegs.segments_ne_nil)] at hshadow
      obtain ⟨tail, htail, rfl⟩ := Option.map_eq_some_iff.mp hshadow
      simp only [viewSegments, Part.allEach_cons, Part.all_node] at hplain
      have hs₃ := hs.of_suffix hsegs.reaches.rest_suffix
      have hraw' : NotRaw segs := by
        intro last hlast
        refine hraw last ?_
        obtain ⟨seg, segs, rfl⟩ := List.exists_cons_of_ne_nil hsegs.segments_ne_nil
        rwa [List.getLast?_cons_cons]
      have hsegs' := ih hsegs htail hraw' hplain.2
      have hne : tail ≠ [] := by
        rintro rfl
        exact hsegs'
      have hargs' := hargs.legible hplain.1.2 [] (z := moreChars tail ++ z) (by
        rw [moreChars_eq hne, List.append_assoc]
        exact .sep_front hsep.kind_next ((hs₃.of_suffix hsep.reaches.rest_suffix).quiet _))
      rw [Phrase.project_nil] at hargs'
      exact .mk (isPlainName_of_shifts hname (by simpa [Label.Plain] using hplain.1.1)) hargs'
        (.cons hsegs')

/-! ## Types in headers -/

/-- Where the type in a header may start: without parameters and behind them. -/
def headerPlaces : List Expectation :=
  [Expected.type, Expected.afterParams]

/-- Only a bracket is found in one of these places and not in the other one. -/
theorem Token.moves_header (ht : t.kind ≠ .lt) (he : e ∈ headerPlaces) (he' : e' ∈ headerPlaces) :
    t.Moves e e' := by
  intro y h
  obtain ⟨-, v, hkind, hv⟩ := Next.of_eq_token h
  obtain ⟨hmem, htried, hrec, hbefore⟩ := first_eq_some_iff.mp hv
  -- Whatever else is tried in one place is tried in the other.
  have hplaces : ∀ e ∈ headerPlaces, ∀ e' ∈ headerPlaces, ∀ l ∈ order, l.tried e = true →
      l.tried e' = true ∨ l = .terminal .lt := by decide
  have hname : ∀ e ∈ headerPlaces, ∀ e' ∈ headerPlaces, Terminal.keywords.filter e.contains =
      Terminal.keywords.filter e'.contains := by decide
  have hlt : v ≠ .lt := by
    rintro rfl
    exact ht hkind
  have hfirst : first e' (t.text ++ y) = some (.terminal v, t.text.length) := by
    refine first_eq_some_iff.mpr ⟨hmem, ?_, hrec, fun l hl htried' => ?_⟩
    · exact (hplaces e he e' he' _ hmem htried).resolve_right (by simpa using hlt)
    · have hl' := (List.takeWhile_prefix _).subset hl
      refine (hplaces e' he' e he l hl' htried').elim (hbefore l hl) ?_
      rintro rfl
      by_contra hsome
      obtain ⟨k, hk⟩ := Option.ne_none_iff_exists'.mp hsome
      obtain ⟨c, r, hr⟩ := List.exists_cons_of_ne_nil (Next.text_ne_nil_of_token h)
      rw [show t.text = c :: r from hr, List.cons_append] at hk hrec
      have hstarts := starts_of_recognise hrec
      obtain rfl : '<' = c := by simpa [starts, Terminal.spelling] using starts_of_recognise hk
      have hall : ∀ l ∈ order, l.starts '<' = true → l = .terminal .lt := by decide
      exact hlt (by simpa using hall _ hmem hstarts)
  rw [Next.of_token hfirst, List.take_left, List.drop_left, hkind]
  simp only [Terminal.settle, Terminal.ofName, hname e he e' he']

namespace Grammar

/-- The type behind the parameters, with its text and its place. -/
def headerTy (n : Nat) : Reading (Ty × String × Extent) := do
  let first ← mark
  let type ← bareTy n
  let text ← textFrom first
  return (type, text, ⟨first, ← mark⟩)

/-- Behind parameters or without any, the text is read as a type, in front of another one. -/
def TraitQuoted (w : String) : Prop :=
  Quotes headerTy (w = ·.2.1) Expected.afterParams (· ∈ headerPlaces) w.toList Expected.afterType
    fun z => ∃ r, z = [' '] ++ (Terminal.kwFor.spelling ++ r)

theorem headerTy_alike {N : Nat → Nat → Prop} {m L : Nat} {κ : Option Terminal}
    (hn : 16 * L + 4 ≤ n) (hm : 16 * L + 4 ≤ m) :
    Alike anyTable N (fun _ _ a b => a.2.1 = b.2.1) L e κ (headerTy n) (headerTy m) := by
  rw [headerTy, headerTy]
  refine Alike.mark_bind fun i j hij => ?_
  refine (TypesSteady.all N n).bareTy.bind_any (by omega) (by omega) fun _ _ _ _ _ => ?_
  exact Alike.textFrom_bind hij fun _ => Alike.mark_bind fun _ _ _ => Alike.pure rfl

theorem closes_headerTy (n : Nat) : Closes [Expected.afterType] behindType false (headerTy n) := by
  rw [headerTy]
  refine .after mark fun first => (TypesClose.all n).bareTy.bind fun type => ?_
  exact .bind (.textFrom first) fun text => .bind .mark fun last => .done

theorem headerTy_obeys (n : Nat) : (headerTy n).Obeys none := by
  rw [headerTy]
  refine .mark_bind fun first => (TypesObey.all n).bareTy.bind fun type => ?_
  exact .textFrom_bind fun text => .mark_bind fun last => .pure _

theorem bareTy_starts {a : Ty} (h : (bareTy n).run s = .ok (a, s₁)) :
    s.next.kind ∈ Expected.afterParams := by
  cases n with
  | zero => simp [bareTy] at h
  | succ n =>
    rw [bareTy, run_peek_bind] at h
    split at h
    iterate 4 rename_i hkind; rw [hkind]; decide
    cases n with
    | zero => simp [plainTy] at h
    | succ n =>
      rw [plainTy, run_peek_bind] at h
      split at h
      iterate 9 rename_i hkind; rw [hkind]; decide
      simp at h

theorem headerTy_quoted {d : Ty × String × Extent} (h : (headerTy n).run s = .ok (d, s₁))
    (hn : 16 * s.rest.length + 4 ≤ n) (hs : Shuts s₁.rest) (he : s.expected ∈ headerPlaces)
    (hend : s₁.next.kind = .kwFor) : TraitQuoted d.2.1 := by
  have hlt := (headerTy_alike (N := Offset s.taken.length 0) (e := s.expected)
    (κ := none) hn hn).lt_of_closes (closes_headerTy n) ⟨0, rfl, rfl⟩ h
  have he₁ : s₁.expected = Expected.afterType := by
    simpa using (closes_headerTy n).expected_mem (by simp) h
  have hline := (headerTy_obeys n).not_slashes h hlt (by rw [he₁]; decide)
  obtain ⟨hstarts, htext⟩ : s.next.kind ∈ Expected.afterParams ∧
      d.2.1.toList = s₁.textFrom s.taken.length := by
    rw [headerTy, run_mark_bind] at h
    obtain ⟨a, s₂, ha, h⟩ := run_bind_eq_ok.mp h
    rw [run_textFrom_bind, run_mark_bind] at h
    obtain ⟨rfl, rfl⟩ := of_run_pure h
    exact ⟨bareTy_starts ha, String.toList_ofList⟩
  rw [TraitQuoted, htext, ← he₁]
  refine quotes_of_run h hlt ((eventually_ge_atTop _).mono fun m hm N => headerTy_alike hn hm)
    hs ?_ hstarts ?_
  · -- Behind it stands `for`, as it did where it was read.
    rintro z ⟨r, rfl⟩
    refine ⟨by simp [Parting, isBreak], .inr hline, _, behindType, _,
      closes_headerTy, by simp [hend, behindType], ?_⟩
    rw [he₁, kind_of_eq (of_symbol (κ := .kwFor) (by decide) isLayout_space)]
    decide
  · intro e he' t rest hnext
    refine Token.moves_header ?_ he he'
    rw [kind_of_token hnext] at hstarts
    exact ne_of_mem_of_not_mem hstarts (by decide)

/-- The parts of a block that its header tells. -/
structure Header where
  isUnsafe : Bool
  generics : Generics
  traitRef : Option String
  selfTy : Ty
  selfPlace : Extent

/-- The type behind the parameters is the trait if there is another one behind it. -/
def headerOf (isUnsafe : Bool) (g : Generics) (d : Ty × String × Extent) :
    Option (Ty × Extent) → Header
  | none => ⟨isUnsafe, g, none, d.1, d.2.2⟩
  | some self => ⟨isUnsafe, g, some d.2.1, self.1, self.2⟩

/-- The header of a block behind its attributes. -/
def header (n : Nat) : Reading Header := do
  let isUnsafe ← optional .kwUnsafe [.kwImpl]
  let _ ← token .kwImpl Expected.type
  let params ← params n
  let d ← headerTy n
  let self ← forTy n
  let clause ← whereClause n
  let _ ← token .lbrace Expected.body
  return headerOf isUnsafe ⟨params, clause⟩ d self

/-- A block behind its header. -/
def blockBody (attrs : List (Attribute Extent)) (first : Nat) (d : Header) (n : Nat) :
    Reading (ImplBlock Extent) := do
  let (innerAttrs, outerAttrs) ← bodyAttributes n
  let items ← items outerAttrs n
  let text ← textFrom first
  return ⟨attrs, d.isUnsafe, d.generics, d.traitRef, d.selfTy, d.selfPlace, innerAttrs, items, text,
    ⟨first, ← mark⟩⟩

theorem blockAfter_eq (attrs : List (Attribute Extent)) (first n : Nat) :
    blockAfter attrs first n = header n >>= fun d => blockBody attrs first d n := by
  simp only [blockAfter, header, headerTy, bind_assoc]
  refine congrArg (_ >>= ·) (funext fun _ => congrArg (_ >>= ·) (funext fun _ =>
    congrArg (_ >>= ·) (funext fun _ => congrArg (_ >>= ·) (funext fun _ =>
    congrArg (_ >>= ·) (funext fun _ => congrArg (_ >>= ·) (funext fun _ =>
    congrArg (_ >>= ·) (funext fun _ => ?_)))))))
  refine congrArg (_ >>= ·) (funext fun self => congrArg (_ >>= ·) (funext fun _ =>
    congrArg (_ >>= ·) (funext fun _ => ?_)))
  cases self <;> rfl

theorem params_expected {ps : List GenericParam} (h : (params n).run s = .ok (ps, s₁))
    (he : s.expected = Expected.type) : s₁.expected ∈ headerPlaces := by
  rw [params] at h
  obtain ⟨listed, s₂, hlisted, h⟩ := flag_of_optional h
  cases hlisted with
  | absent =>
    obtain ⟨-, rfl⟩ := of_run_pure h
    simp [he, headerPlaces]
  | present =>
    have hcloses : Closes [Expected.afterParams] [] false
        (commaList .gt Expected.param Expected.afterParams (param n) n) := .commaList (by simp) n
    have hmem := hcloses.expected_mem (by simp) h
    have hall : ∀ e ∈ [Expected.afterParams], e ∈ headerPlaces := by decide
    exact hall _ hmem

theorem header_quoted {d : Header} (h : (header n).run s = .ok (d, s₁))
    (hn : 16 * s.rest.length + 1 ≤ n) (hs : Shuts s₁.rest) : d.generics.Closed ∧
      (∀ w ∈ d.traitRef, TraitQuoted w) ∧
      (∃ s₂ s₃, Phrase.Derives .ty s₂ d.selfTy s₃ ∧ Shuts s₃.rest) ∧
      s₁.expected = Expected.body := by
  rw [header] at h
  obtain ⟨isUnsafe, s₂, hunsafe, h⟩ := run_bind_eq_ok.mp h
  obtain ⟨t, s₃, himpl, h⟩ := shifts_of_token h
  obtain ⟨ps, s₄, hps, h⟩ := run_bind_eq_ok.mp h
  obtain ⟨d, s₅, hty, h⟩ := run_bind_eq_ok.mp h
  obtain ⟨self, s₆, hself, h⟩ := run_bind_eq_ok.mp h
  obtain ⟨clause, s₇, hclause, h⟩ := run_bind_eq_ok.mp h
  obtain ⟨u, s₈, hbrace, h⟩ := shifts_of_token h
  obtain ⟨rfl, rfl⟩ := of_run_pure h
  have hs₇ := hs.of_suffix hbrace.reaches.rest_suffix
  have hs₆ := hs₇.of_suffix (Scan.reaches_of_run hclause).rest_suffix
  have hs₅ := hs₆.of_suffix (Scan.reaches_of_run hself).rest_suffix
  have hclosed := generics_closed hps
    ((Scan.reaches_of_run hty).trans (Scan.reaches_of_run hself)) hclause hs₇
  have hlen₂ := (Scan.reaches_of_run hunsafe).rest_suffix.length_le
  have hlen₃ := himpl.reaches.rest_lt (by simp [himpl.taken])
  have hlen₄ := (Scan.reaches_of_run hps).rest_suffix.length_le
  have htype : Phrase.Derives .ty s₄ d.1 s₅ := by
    rw [headerTy, run_mark_bind] at hty
    obtain ⟨a', s', ha, hty⟩ := run_bind_eq_ok.mp hty
    rw [run_textFrom_bind, run_mark_bind] at hty
    obtain ⟨rfl, rfl⟩ := of_run_pure hty
    exact (TypesDerived.all n).bareTy ha
  -- With a `for` the first type is the trait, and the self type follows.
  rw [forTy] at hself
  obtain ⟨present, s₉, hfor, hself⟩ := flag_of_optional hself
  cases hfor with
  | absent =>
    obtain ⟨rfl, rfl⟩ := of_run_pure hself
    exact ⟨hclosed, by simp [headerOf], ⟨_, _, htype, hs₅⟩, hbrace.expected⟩
  | present hfor =>
    rw [if_pos rfl, run_mark_bind] at hself
    obtain ⟨b, s', hb, hself⟩ := run_bind_eq_ok.mp hself
    rw [run_mark_bind] at hself
    obtain ⟨rfl, rfl⟩ := of_run_pure hself
    refine ⟨hclosed, ?_, ⟨_, _, (TypesDerived.all n).ty hb, hs₆⟩, hbrace.expected⟩
    have hquoted := headerTy_quoted hty (by omega) hs₅
      (params_expected hps himpl.expected) hfor.kind_next
    simpa [headerOf] using hquoted

end Grammar

/-! ## Headers in print -/

/-- The where clause of a block and its opening brace. -/
def headerEnd (clause : Option (List Predicate)) (y : List Char) : List Char :=
  (if printClause clause "" = "" then [' '] else (printClause clause "").toList) ++
    (Terminal.lbrace.spelling ++ y)

/-- The header of a block is read as it is printed. -/
structure ImplBlock.Headed (b : ImplBlock σ) : Prop where
  unbounded : ∀ p ∈ b.generics.params, p.Unbounded
  params : ∀ p ∈ b.generics.withoutDefaults.params, ∀ z, ParamEnds z → ParamRead p z
  clausal : Clausal b.generics.clause
  trait : ∀ w ∈ b.traitRef, TraitQuoted w
  self : ∃ p, b.selfTy = .path p ∧ ∀ y, Pathed p (headerEnd b.generics.clause y)

namespace Grammar

variable {clause : Option (List Predicate)}

theorem headerEnd_front (hclause : Clausal clause) (y : List Char) : Breaks (headerEnd clause y) ∧
    (∃ c ∈ ['{', 'w'], ∃ r, (headerEnd clause y).dropWhile isLayout = c :: r) ∧
    (Next.of Expected.afterType (headerEnd clause y)).kind ∈ [Terminal.lbrace, .kwWhere] := by
  cases clause with
  | none =>
    have htext : headerEnd none y = [' '] ++ (Terminal.lbrace.spelling ++ y) := rfl
    rw [htext, kind_of_eq (of_symbol (by decide) isLayout_space)]
    exact ⟨by simp [Breaks, isBreak], ⟨'\x7b', by simp, y, rfl⟩, by simp⟩
  | some ps =>
    have hne : ps ≠ [] := fun h => hclause.1 (by rw [h])
    have htoList := printClause_toList hne ""
    have hempty : printClause (some ps) "" ≠ "" := by
      intro h
      rw [h] at htoList
      simp at htoList
    have htext : headerEnd (some ps) y = ['
'] ++ (Terminal.kwWhere.spelling ++ ('
' ::
        (linesOf ("" ++ indentation) ps ++ [',', '
'] ++ (Terminal.lbrace.spelling ++ y)))) := by
      rw [headerEnd, if_neg hempty, htoList]
      simp
    rw [htext, kind_of_eq (of_symbol (by decide) (isLayout_line isLayout_nil))]
    exact ⟨by simp [Breaks, isBreak], ⟨'w', by simp, _, rfl⟩, by simp⟩

/-- The keywords of a header are found in front of a break. -/
theorem of_headerKeyword {κ : Terminal} (hκ : κ ∈ [Terminal.kwUnsafe, .kwImpl])
    (he : e ∈ [Expected.block, Expected.afterAttribute]) (hg : IsLayout g) (hz : Breaks z) :
    Next.of e (g ++ (κ.spelling ++ z)) = .token ⟨κ, g, κ.spelling⟩ z := by
  have hall : ∀ κ ∈ [Terminal.kwUnsafe, .kwImpl], κ ∈ Terminal.keywords ∧
      finds Expected.block κ = true ∧ κ ∈ Expected.afterAttribute := by decide
  obtain ⟨hkeyword, hblock, hafter⟩ := hall κ hκ
  simp only [List.mem_cons, List.not_mem_nil, or_false] at he
  rcases he with rfl | rfl
  · exact of_symbol hblock hg
  · exact of_keyword hkeyword hafter (by decide) hg hz

variable {α : Type} {P : α → Prop} {f : Bool → Reading α} {x : List Char}

theorem keywords_readAs (isUnsafe : Bool) (he : e ∈ [Expected.block, Expected.afterAttribute])
    (hg : IsLayout g) (hx : Breaks x) (h : (f isUnsafe).ReadsAs P Expected.type x e' z) :
    (optional .kwUnsafe [.kwImpl] >>= fun isUnsafe => token .kwImpl Expected.type >>=
      fun _ => f isUnsafe).ReadsAs P e
      (g ++ ((if isUnsafe then "unsafe impl" else "impl").toList ++ x)) e' z := by
  cases isUnsafe with
  | false =>
    have himpl := of_headerKeyword (κ := .kwImpl) (by simp) he hg hx
    refine .absent ?_ (.token himpl h)
    change (Next.of e (g ++ (Terminal.kwImpl.spelling ++ x))).kind ≠ _
    rw [himpl]
    simp [Next.kind]
  | true =>
    have htext : "unsafe impl".toList ++ x = Terminal.kwUnsafe.spelling ++
        ([' '] ++ (Terminal.kwImpl.spelling ++ x)) := rfl
    rw [if_pos rfl, htext]
    refine .present (of_headerKeyword (by simp) he hg (by simp [Breaks, isBreak])) ?_
    exact .token (of_symbol (by decide) isLayout_space) h

theorem headerTy_readsAs_path {p : Path} (hp : Pathed p z) (he : e ∈ headerPlaces)
    (hg : IsLayout g) : (Next.of e (g ++ (p.print.toList ++ z))).kind ≠ .lt ∧ ∀ᶠ n in atTop,
    (headerTy n).ReadsAs
      (·.1 = .path p) e (g ++ (p.print.toList ++ z)) Expected.afterType z := by
  have hplaces : ∀ e ∈ headerPlaces, .ident ∈ e ∧ finds e .pathSep = true := by decide
  obtain ⟨hkind, hreads⟩ := hp e (hplaces e he).1 (hplaces e he).2 g hg
  have hbare : ∀ᶠ n in atTop, (bareTy n).Reads e (g ++ (p.print.toList ++ z))
      (.path p) Expected.afterType z := by
    refine eventually_of_succ (eventually_of_succ ?_)
    filter_upwards [hreads] with n hn
    rw [bareTy, plainTy]
    clear hreads
    generalize p.rooted = rooted at hkind
    cases rooted <;> exact .peek hkind (.peek hkind (.map hn))
  refine ⟨?_, hbare.mono fun n hn => ?_⟩
  · rw [hkind]
    split <;> decide
  · rw [headerTy]
    refine .mark fun first => hn.bind_readsAs (.textFrom fun text => .mark fun last => ?_)
    exact .pure rfl

theorem forTy_readsAs_none (h : (Next.of e y).kind ≠ .kwFor) (n : Nat) :
    (forTy n).ReadsAs (· = none) e y e y := by
  rw [forTy]
  refine .absent h ?_
  rw [if_neg (by simp)]
  exact .pure rfl

theorem forTy_readsAs_some {a : Ty} (h : Typed a z) : ∀ᶠ n in atTop, (forTy n).ReadsAs
    (fun self => ∃ x, self = some (a, x)) Expected.afterType
      ([' '] ++ (Terminal.kwFor.spelling ++ ([' '] ++ (a.print.toList ++ z))))
        Expected.afterType z := by
  filter_upwards [h.reads (e := Expected.type) (by decide) isLayout_space] with n hn
  rw [forTy]
  refine .present (of_symbol (by decide) isLayout_space) ?_
  rw [if_pos rfl]
  exact .mark fun first => hn.bind_readsAs (.mark fun last => .pure ⟨_, rfl⟩)

end Grammar

namespace ImplBlock

/-- The trait of a block with the keyword behind it. -/
def traitChars : Option String → List Char
  | none => []
  | some w => w.toList ++ ([' '] ++ (Terminal.kwFor.spelling ++ [' ']))

theorem header_toList (b : ImplBlock σ) (y : List Char) (h : ∀ p ∈ b.generics.params, p.Unbounded) :
    b.header.toList ++ y = (if b.isUnsafe then "unsafe impl" else "impl").toList ++
      (b.generics.withoutDefaults.printParams.toList ++
        ([' '] ++ (traitChars b.traitRef ++
          (b.selfTy.print.toList ++ headerEnd b.generics.clause y)))) := by
  rw [header, Generics.printNames_of_unbounded h]
  cases b.traitRef with
  | none => by_cases hclause : printClause b.generics.clause "" = "" <;>
      simp [headerEnd, traitChars, hclause, Terminal.spelling]
  | some w => by_cases hclause : printClause b.generics.clause "" = "" <;>
      simp [headerEnd, traitChars, hclause, Terminal.spelling]

variable {b : ImplBlock σ}

namespace Headed

/-- The types of a header, in front of its where clause. -/
theorem types_readAs (h : b.Headed) (he : e ∈ headerPlaces) (y : List Char) (e' : Expectation)
    (z : List Char) : (Next.of e ([' '] ++ (traitChars b.traitRef ++ (b.selfTy.print.toList ++
      headerEnd b.generics.clause y)))).kind ≠ .lt ∧
    ∀ᶠ n in atTop, ∀ (f : Ty × String × Extent → Option (Ty × Extent) →
      Reading Header) (P : Header → Prop),
      (∀ d self x, (∀ u g, headerOf u g d self = ⟨u, g, b.traitRef, b.selfTy, x⟩) →
        (f d self).ReadsAs P Expected.afterType (headerEnd b.generics.clause y) e' z) →
      (headerTy n >>= fun d => forTy n >>= fun self => f d self).ReadsAs P e
        ([' '] ++ (traitChars b.traitRef ++
          (b.selfTy.print.toList ++ headerEnd b.generics.clause y))) e' z := by
  obtain ⟨p, hself, hpath⟩ := h.self
  have hpath := hpath y
  obtain ⟨-, -, hend⟩ := headerEnd_front h.clausal y
  rw [hself]
  -- Without a trait the self type comes first, and no `for` behind it.
  cases htrait : b.traitRef with
  | none =>
    obtain ⟨hkind, hreads⟩ := headerTy_readsAs_path hpath he isLayout_space
    rw [Ty.print_path]
    refine ⟨hkind, hreads.mono fun n hn f P hf => ?_⟩
    refine hn.bind fun d hd =>
      (forTy_readsAs_none (ne_of_mem_of_not_mem hend (by decide)) n).bind ?_
    rintro _ rfl
    exact hf d none d.2.2 fun u g => by rw [headerOf, hd]
  | some w =>
    obtain ⟨hkind, hreads⟩ := h.trait w htrait e he [' '] isLayout_space _ ⟨_, rfl⟩
    have htext : traitChars (some w) ++
        ((Ty.path p).print.toList ++ headerEnd b.generics.clause y) = w.toList ++
        ([' '] ++ (Terminal.kwFor.spelling ++ ([' '] ++ ((Ty.path p).print.toList ++
          headerEnd b.generics.clause y)))) := by
      simp [traitChars]
    rw [htext]
    refine ⟨ne_of_mem_of_not_mem hkind (by decide), ?_⟩
    filter_upwards [hreads, forTy_readsAs_some hpath.typed] with n hn hfor f P hf
    refine hn.bind fun d hd => hfor.bind ?_
    rintro _ ⟨x, rfl⟩
    exact hf d _ x fun u g => by rw [headerOf, ← hd]

/-- The header of a block, behind its attributes. -/
theorem header_readsAs (h : b.Headed) (he : e ∈ [Expected.block, Expected.afterAttribute])
    (hg : IsLayout g) (y : List Char) : ∀ᶠ n in atTop, (Grammar.header n).ReadsAs
      (fun d => d.isUnsafe = b.isUnsafe ∧ d.generics = b.generics.withoutDefaults ∧
        d.traitRef = b.traitRef ∧ d.selfTy = b.selfTy) e
      (g ++ (b.header.toList ++ y)) Expected.body y := by
  -- Without parameters the types follow the keyword.
  have he' : (if b.generics.withoutDefaults.params = [] then Expected.type
      else Expected.afterParams) ∈ headerPlaces := by
    split <;> decide
  have hindent : IsLayout "".toList := isLayout_nil
  obtain ⟨e₁, g', hbrace, hg', hclause⟩ := whereClause_reads_brace (z := y) h.clausal
    (e := Expected.afterType) (by decide) hindent
  obtain ⟨hlt, -⟩ := h.types_readAs (e := Expected.type) (by decide) y e []
  have hparams := params_reads h.params (e := Expected.type) (by decide) fun _ => hlt
  filter_upwards [hparams, (h.types_readAs he' y Expected.body y).2, hclause]
    with n hparams htypes hclause
  rw [b.header_toList y h.unbounded, Grammar.header]
  refine keywords_readAs b.isUnsafe he hg ?_
    (hparams.bind_readsAs (htypes _ _ fun d self x hd => ?_))
  · rw [Generics.printParams]
    cases b.generics.withoutDefaults.params <;> simp [printParamList, Breaks, isBreak]
  · have htext : headerEnd b.generics.clause y =
      (if printClause b.generics.clause "" = "" then [' '] else
        (printClause b.generics.clause "").toList ++ "".toList) ++
          (Terminal.lbrace.spelling ++ y) := by
      simp [headerEnd]
    rw [htext]
    refine hclause.bind_readsAs (.token (of_symbol hbrace hg') (.pure ?_))
    rw [hd]
    exact ⟨rfl, rfl, rfl, rfl⟩

end Headed
end ImplBlock
end ShadowImpl
