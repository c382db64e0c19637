import ShadowImpl.Proofs.ArgumentLists

/-!
# What a marker adds, in print

The predicates that a marker adds are printed with commas between them, first the baselines of the
projected parameters, then the literal ones. A projected parameter may have any name, as no word has
a meaning of its own where the parameters are listed. In front of a bound six words have one.
-/

namespace ShadowImpl

open Filter Lexeme Recogniser Reading

variable {s s' : Scan} {e : Expectation} {κ : Terminal} {t : Token} {y z g u : List Char}
  {p : Predicate} {ps qs : List Predicate} {name : String}

/-! ## Lists of predicates in print -/

theorem exists_join_cons (sep a : String) (l : List String) :
    ∃ r, (Text.join sep (a :: l)).toList = a.toList ++ r := by
  cases l with
  | nil => exact ⟨[], by simp [Text.join]⟩
  | cons b l => exact ⟨_, join_cons_cons sep a b l⟩

theorem Relisted.nil : Relisted [] :=
  OpenListed.nil rfl

/-- One more predicate in front. What stands behind it closes nothing that stays open in `y`. -/
theorem Relisted.cons (hps : Relisted ps)
    (hy : Quiet y (Text.join ", " (ps.map Predicate.print)).toList)
    (h : ∀ z, (∀ c ∈ z.head?, c ∈ [',', ';']) → Quiet y z → Grammar.PredicateRead p z) :
    Relisted (p :: ps) := by
  cases ps with
  | nil => exact OpenListed.single (h [] (by simp) .nil).listed
  | cons p' ps =>
    rw [Relisted, List.map_cons, List.map_cons, join_cons_cons]
    exact .cons (Grammar.PredicateRead.listed (h _ (by simp) (by simpa using hy))) hps

theorem Quiet.within {y' : List Char} (h : Quiet y z) (hy : y <:+: y') : Quiet y' z :=
  fun m hm => (h m hm).trans hy

theorem Quiet.join_append (hps : Quiet y (Text.join ", " (ps.map Predicate.print)).toList)
    (hqs : Quiet y (Text.join ", " (qs.map Predicate.print)).toList) :
    Quiet y (Text.join ", " ((ps ++ qs).map Predicate.print)).toList := by
  rw [Quiet.commas_iff] at *
  intro w hw
  rw [List.map_append, List.mem_append] at hw
  exact hw.elim (hps w) (hqs w)

namespace Phrase.Derives

theorem predicate_read (h : Derives .predicate s p s') (hplain : p.view.All Label.Plain)
    (hz : Finishes s' z) : Grammar.PredicateRead p z := by
  have := h.legible hplain [] hz
  rwa [project_nil] at this

theorem quiet_join (h : Derives .predicates s ps s') :
    Quiet s.rest (Text.join ", " (ps.map Predicate.print)).toList := by
  have := h.quiet []
  rwa [project_nil] at this

/-- Predicates that have been read may stand in print in front of others, if those close nothing
that stays open behind where the first ones were read. -/
theorem relisted_append (h : Derives .predicates s ps s')
    (hplain : ∀ p ∈ ps, p.view.All Label.Plain) (hqs : Relisted qs)
    (hq : Quiet s'.rest (Text.join ", " (qs.map Predicate.print)).toList) :
    Relisted (ps ++ qs) := by
  induction ps generalizing s with
  | nil => exact hqs
  | cons p ps ih =>
    have hp' := hplain p (by simp)
    cases h with
    | predicatesLast hp => exact hqs.cons hq fun z hz hquiet => hp.predicate_read hp' ⟨hz, hquiet⟩
    | predicatesCons hp hcomma hps =>
      have hrest := hps.quiet_join.join_append (hps.reaches.quiet hq)
      exact (ih hps fun q hmem => hplain q (by simp [hmem])).cons (hcomma.reaches.quiet hrest)
        fun z hz hquiet => hp.predicate_read hp' ⟨hz, hquiet⟩

end Phrase.Derives

/-- Predicates that are read between brackets are read with a comment behind them that has the marks
of all that follows. -/
theorem Source.derives_enclosed {file args : String}
    (h : Source.predicates ⟨file, args, none⟩ = .ok ps) (hv : Enclosed args.toList u) :
    ∃ s', Phrase.Derives .predicates
      (.start Expected.predicate (args.toList ++ trailer u)) ps s' ∧ trailer u <:+ s'.rest := by
  obtain ⟨_, _, s', rfl, hrun, hrest⟩ :=
    exists_run_trailer hv (Grammar.predicates_steady (by decide)) h
  exact ⟨s', Grammar.predicates_derives hrun, hrest⟩

/-- Predicates that are read between brackets may stand in print in front of others, if those close
nothing that stays open behind the brackets. -/
theorem Source.relisted_append {file args : String}
    (h : Source.predicates ⟨file, args, none⟩ = .ok ps) (hv : Enclosed args.toList u)
    (hplain : ∀ p ∈ ps, p.view.All Label.Plain) (hqs : Relisted qs)
    (hq : Quiet u (Text.join ", " (qs.map Predicate.print)).toList) : Relisted (ps ++ qs) := by
  obtain ⟨s', hderives, hrest⟩ := derives_enclosed h hv
  exact hderives.relisted_append hplain hqs fun m hm =>
    (infix_trailer.mpr (hq m hm)).trans hrest.isInfix

/-- The names of a list are names. -/
theorem Source.names_isName {src : Source} {ns : List String} (h : src.names = .ok ns) :
    ∀ n ∈ ns, IsName n.toList := by
  obtain ⟨ns, s', hrun, -, rfl⟩ := exists_run h
  have hname : ∀ {s s₁ : Scan} {name : String},
      (token .ident [.comma]).run s = .ok (name, s₁) → IsName name.toList := by
    intro s s₁ name hrun
    obtain ⟨t, r, hnext, hkind, rfl, -⟩ := run_token_eq_ok.mp hrun
    simpa using isName_of_token hnext hkind
  refine openList_induction (P := fun _ ns => ∀ n ∈ ns, IsName n.toList)
    (fun _ => by simp) ?_ ?_ hrun
  · exact fun hn _ => by simpa using hname hn
  · exact fun hn _ _ _ hns => by simpa using ⟨hname hn, hns⟩

namespace Directive

variable {src : Source} {d d' : Directive} {m : Meta Location} {ms : List (Meta Location)}

/-- What following a meta item can do: it projects the names of a list, or adds the predicates of
one. -/
theorem follow_cases (h : follow src d m = .ok d') : ∃ args group, m.form = .list args group ∧
    ((∃ ns, Source.names { src with region := some (interior group) } = .ok ns ∧
        d' = ns.foldl project d) ∨
      ∃ ps, Source.predicates { src with region := some (interior group) } = .ok ps ∧
        d' = { d with literals := d.literals ++ ps }) := by
  rw [follow, followM] at h
  split at h
  · simp at h
  · rename_i args group _ hform
    obtain ⟨ns, hns, h⟩ := bind_eq_ok_iff.mp h
    exact ⟨args, group, hform, .inl ⟨ns, hns, (Except.ok.inj h).symm⟩⟩
  · rename_i args group _ hform
    obtain ⟨ps, hps, h⟩ := bind_eq_ok_iff.mp h
    refine ⟨args, group, hform, .inr ⟨ps, hps, ?_⟩⟩
    rw [← literals_foldl_addLiteral]
    exact (Except.ok.inj h).symm
  · simp at h

theorem mem_foldl_project {ns : List String} (h : name ∈ (ns.foldl project d).projected) :
    name ∈ d.projected ∨ name ∈ ns := by
  rw [(projected_foldl_project ns d).1, List.mem_append, List.mem_eraseDups] at h
  exact h.imp_right fun hmem => List.mem_of_mem_filter hmem

/-- Every projected parameter has a name. -/
theorem projected_isName (h : parse src = .ok d) : ∀ name ∈ d.projected, IsName name.toList := by
  obtain ⟨ms, -, h⟩ := bind_eq_ok_iff.mp h
  suffices ∀ d₀ : Directive, (∀ name ∈ d₀.projected, IsName name.toList) →
      ms.foldlM (follow src) d₀ = .ok d → ∀ name ∈ d.projected, IsName name.toList from
    this {} (by simp) h
  clear h
  induction ms with
  | nil =>
    rintro d₀ hd₀ h
    obtain rfl : d₀ = d := Except.ok.inj h
    exact hd₀
  | cons m ms ih =>
    intro d₀ hd₀ h
    rw [List.foldlM_cons] at h
    obtain ⟨d₁, hd₁, h⟩ := bind_eq_ok_iff.mp h
    refine ih d₁ (fun name hname => ?_) h
    obtain ⟨args, group, -, ⟨ns, hns, rfl⟩ | ⟨ps, -, rfl⟩⟩ := follow_cases hd₁
    · exact (mem_foldl_project hname).elim (hd₀ name) (Source.names_isName hns name)
    · exact hd₀ name hname

/-- Predicates between the brackets of a list can be read on their own. -/
theorem predicates_alone {args : String} {group : Location} (h : src.metas = .ok ms) (hm : m ∈ ms)
    (hform : m.form = .list args group)
    (hps : Source.predicates { src with region := some (interior group) } = .ok ps) :
    Source.predicates ⟨src.file, args, none⟩ = .ok ps := by
  have hfinds : Source.Finds src.file src.text m := .list src.region h hm
  obtain ⟨p, q, htext, htiled, hinterior⟩ := hfinds.exists_split hform
  have hreads : Source.Reads { src with region := some (interior group) } args.toList := by
    rw [hinterior]
    exact ⟨⟨p, q, Source.holds_region htext⟩, htiled⟩
  have halone : Source.Reads ⟨src.file, args, none⟩ args.toList :=
    ⟨⟨[], [], Source.holds_whole src.file args⟩, htiled⟩
  have hagree := Source.predicates_agree hreads halone
  rw [hps] at hagree
  cases hagree' : Source.predicates ⟨src.file, args, none⟩ with
  | ok ps' =>
    rw [hagree'] at hagree
    cases hagree with
    | ok heq => rw [heq]
  | error =>
    rw [hagree'] at hagree
    cases hagree

/-- The literal predicates of lists that stand one behind the other: each list closes nothing that
stays open in one before it, as both stand in one text. -/
theorem literals_relisted {d₀ : Directive} (hms : src.metas = .ok ms) {later : List (Meta Location)}
    (hsub : ∀ m ∈ later, m ∈ ms) (hturn : InTurn (later.flatMap fun m => m.form.arguments) y)
    (h : later.foldlM (follow src) d₀ = .ok d) : ∃ qs, d.literals = d₀.literals ++ qs ∧
      ((∀ q ∈ qs, q.view.All Label.Plain) →
        Relisted qs ∧ Quiet y (Text.join ", " (qs.map Predicate.print)).toList) := by
  -- By induction on the lists, of which the text of a later one stands behind that of an earlier
  -- one.
  induction later generalizing d₀ y with
  | nil =>
    obtain rfl : d₀ = d := Except.ok.inj h
    exact ⟨[], by simp, fun _ => ⟨.nil, .nil⟩⟩
  | cons m later ih =>
    rw [List.foldlM_cons] at h
    obtain ⟨d₁, hd₁, h⟩ := bind_eq_ok_iff.mp h
    obtain ⟨args, group, hform, hcases⟩ := follow_cases hd₁
    rw [List.flatMap_cons, hform] at hturn
    cases hturn with
    | @cons v vs x u hv hrest =>
      obtain ⟨qs, hqs, hread⟩ := ih (fun m hm => hsub m (by simp [hm])) hrest h
      have hinfix : u <:+: x ++ (args.toList ++ u) := ⟨x ++ args.toList, [], by simp⟩
      rcases hcases with ⟨ns, -, rfl⟩ | ⟨ps, hps, rfl⟩
      · refine ⟨qs, ?_, fun hplain => ?_⟩
        · rw [hqs, (projected_foldl_project ns d₀).2]
        · obtain ⟨hlisted, hquiet⟩ := hread hplain
          exact ⟨hlisted, hquiet.within hinfix⟩
      · have halone := predicates_alone hms (hsub m (by simp)) hform hps
        refine ⟨ps ++ qs, by simp [hqs], fun hplain => ?_⟩
        simp only [List.mem_append, or_imp, forall_and] at hplain
        obtain ⟨hlisted, hquiet⟩ := hread hplain.2
        obtain ⟨-, s', -, hderives, -⟩ := Source.derives_of_predicates halone
        have hargs : args.toList <:+: x ++ (args.toList ++ u) := ⟨x, u, by simp⟩
        exact ⟨Source.relisted_append halone hv hplain.1 hlisted hquiet,
          (hderives.quiet_join.within hargs).join_append (hquiet.within hinfix)⟩

end Directive

/-! ## Baselines -/

namespace Directive

/-- The words that are keywords where a predicate starts. -/
def reserved : List String :=
  (Terminal.keywords.filter Expected.predicate.contains).map fun κ => String.ofList κ.spelling

example : reserved = ["extern", "unsafe", "impl", "dyn", "for", "fn"] := by decide

theorem mem_reserved : name ∈ reserved ↔
    ∃ κ ∈ Terminal.keywords, κ ∈ Expected.predicate ∧ κ.spelling = name.toList := by
  simp only [reserved, List.mem_map, List.mem_filter, List.contains_iff_mem, and_assoc]
  refine exists_congr fun κ => and_congr_right fun _ => and_congr_right fun _ => ?_
  rw [← String.toList_inj, String.toList_ofList]

theorem ofName_eq_ident (h : name ∉ reserved) (he : e ∈ Grammar.predicatePlaces) :
    Terminal.ofName e name.toList = .ident := by
  have hall : ∀ e ∈ Grammar.predicatePlaces, ∀ κ ∈ Terminal.keywords, κ ∈ e →
      κ ∈ Expected.predicate := by
    decide
  have hnone : (Terminal.keywords.filter e.contains).find? (·.spelling = name.toList) = none := by
    refine List.find?_eq_none.mpr fun κ hκ hspelling => h (mem_reserved.mpr ?_)
    rw [List.mem_filter] at hκ
    exact ⟨κ, hκ.1, hall e he κ hκ.1 (by simpa using hκ.2), by simpa using hspelling⟩
  rw [Terminal.ofName, hnone, Option.getD_none]

theorem ends_colon (r : List Char) : Ends (':' :: r) :=
  .of_lead (c := ':') (r := r) (by simp [Breaks, isBreak]) (by simp [isLayout]) (by simp)

/-- A colon alone goes on with no path. -/
theorem kind_colon_ne {r : List Char} (hr : r.head? ≠ some ':') (e : Expectation) :
    (Next.of e (':' :: r)).kind ≠ .pathSep := by
  refine kind_ne_of_not_opens (by decide) (ends_colon r).slash ?_
  rintro ⟨u, hu⟩
  rw [List.dropWhile_cons_of_neg (by simp [isLayout])] at hu
  have htail : ':' :: u = r := (List.cons.inj hu).2
  simp [← htail] at hr

open Grammar in
/-- The subject of a baseline is read as a path of one name. -/
theorem subject_reads {r : List Char} (hname : IsName name.toList) (hword : name ∉ reserved)
    (he : e ∈ predicatePlaces) (hg : IsLayout g) (hr : r.head? ≠ some ':') :
    (Next.of e (g ++ (name.toList ++ ':' :: r))).kind = .ident ∧
      ∀ᶠ n in atTop, (subject n).Reads e (g ++ (name.toList ++ ':' :: r))
        (.ofIdent name, []) Expected.afterType (':' :: r) := by
  have hof := of_name (z := ':' :: r) hname (finds_predicate e he).2.2.1 hg
    (by simp [Breaks, isBreak])
  rw [ofName_eq_ident hword he] at hof
  have hkind := kind_of_eq hof
  obtain ⟨e₁, he₁, hargs⟩ := (ends_colon r).argsRead.segmentArgs (by simp)
    (e := Expected.afterType) (by simp)
  obtain rfl : e₁ = Expected.afterType := by simpa using he₁
  obtain ⟨e₂, he₂, hmore⟩ := MoreRead.nil (kind_colon_ne hr)
    ⟨name, none⟩ Expected.afterType (by simp)
  obtain rfl : e₂ = Expected.afterType := by simpa using he₂
  -- The colon is no arguments and no `::`, so the name is the whole path.
  have hsegments : ∀ᶠ n in atTop, (segments n).Reads e
      (g ++ (name.toList ++ ':' :: r)) [⟨name, none⟩] Expected.afterType (':' :: r) := by
    refine eventually_of_succ (eventually_of_succ ?_)
    filter_upwards [hargs, hmore] with n hargs hmore
    rw [segments]
    refine .token hof ?_
    rw [String.ofList_toList, segmentsFrom]
    exact hargs.bind hmore
  have hty : ∀ᶠ n in atTop, (ty n).Reads e (g ++ (name.toList ++ ':' :: r))
      (.ofIdent name) Expected.afterType (':' :: r) := by
    refine eventually_of_succ (eventually_of_succ (eventually_of_succ (eventually_of_succ ?_)))
    filter_upwards [hsegments] with n hn
    rw [ty, bareTy, plainTy, path]
    refine .peek hkind ?_
    rw [if_neg (by decide)]
    refine .peek hkind (.peek hkind (.map (.absent ?_ (.map hn))))
    rw [hkind]
    decide
  refine ⟨hkind, ?_⟩
  filter_upwards [hty] with n hn
  rw [subject]
  refine .peek hkind ?_
  rw [if_neg (by decide)]
  exact .map hn

theorem print_ofIdent (name : String) : (Ty.ofIdent name).print = name := by
  simp [Ty.ofIdent, Path.ofIdent, Ty.print, Path.print, printSegments, Segment.print, Text.join]

theorem boundChars_shadow :
    Grammar.boundChars (printBounds [.trait (.ofIdent "Shadow") false []]) false =
    ':' :: " Shadow".toList := by
  decide

theorem baseline_print (name : String) :
    (baseline name).print.toList = name.toList ++ ':' :: " Shadow".toList := by
  rw [baseline, Predicate.print, Grammar.printBounded_toList, List.isEmpty_cons, boundChars_shadow,
    print_ofIdent, String.toList_append]
  rfl

theorem isPlainName_shadow : IsPlainName "Shadow" := by
  refine ⟨?_, by decide⟩
  rw [IsName]
  decide

open Grammar in
/-- A baseline of a parameter whose name is no keyword there. -/
theorem baseline_read (hname : IsName name.toList) (hword : name ∉ reserved)
    (hz : ∀ c ∈ z.head?, c ∈ [',', ';']) : PredicateRead (baseline name) z := by
  -- the place of `z` itself, where it closes nothing
  have hends : Finishes ⟨[], z, []⟩ z := ⟨hz, .of_piece (List.infix_refl z)⟩
  have hne : ∀ {κ : Terminal}, κ ∉ [Terminal.eof, .comma, .semi, .unknown] →
      ∀ e, (Next.of e z).kind ≠ κ := by
    rintro κ hκ e rfl
    exact hκ (hends.kind e)
  have hpath : Segmented [⟨"Shadow", none⟩] z :=
    .mk isPlainName_shadow hends.continues.ends.argsRead (.nil (hne (by decide)))
  have hbound : BoundRead (.trait (.ofIdent "Shadow") false []) z :=
    .trait false (hpath.pathed false) (by simp)
  refine .of_subject (fun e he g hg => ?_)
    (.inr ⟨by simp, hbound.single (hne (by decide))⟩) hends.head_ne
  obtain ⟨hkind, hreads⟩ := subject_reads hname hword he hg (r := " Shadow".toList ++ z) (by simp)
  rw [List.isEmpty_cons, boundChars_shadow, print_ofIdent]
  exact ⟨(congrArg (· ∈ Expected.type) hkind).mpr (by decide), hreads⟩

/-- Baselines in front of other predicates. -/
theorem relisted_baselines {names : List String} (hnames : ∀ name ∈ names, IsName name.toList)
    (hwords : ∀ name ∈ names, name ∉ reserved) (hqs : Relisted qs) :
    Relisted (names.map baseline ++ qs) := by
  induction names with
  | nil => exact hqs
  | cons name names ih =>
    have hrest := ih (fun n hn => hnames n (by simp [hn])) fun n hn => hwords n (by simp [hn])
    -- no mark stays open in a baseline, whatever stands behind it
    exact hrest.cons (.of_piece (List.infix_refl _)) fun z hz _ =>
      baseline_read (hnames name (by simp)) (hwords name (by simp)) hz

end Directive

/-! ## Keywords in place of a subject -/

variable {s₁ : Scan} {t' : Token}

/-- What is expected behind a keyword that a predicate starts with. -/
def behindKeywords : List Expectation :=
  [Expected.bound, [.lt], [.kwExtern, .kwFn], [.kwFn, .string], [.lpar]]

theorem kind_colon (he : e ∈ behindKeywords) (z : List Char) :
    (Next.of e (':' :: ' ' :: z)).kind = .unknown := by
  have hnone : first e (':' :: ' ' :: z) = none := by
    simp only [behindKeywords, List.mem_cons, List.not_mem_nil, or_false] at he
    rcases he with rfl | rfl | rfl | rfl | rfl <;> rfl
  rw [Next.of_unknown (by simp) hnone]
  rfl

/-- Where no token stands nothing is taken. -/
theorem Scan.Reaches.eq_of_unknown (h : s.Reaches s') (hs : s.next.kind = .unknown) : s' = s := by
  cases h with
  | refl => rfl
  | step hnext =>
    have hmem := Next.kind_mem_of_token hnext
    rw [← kind_of_token hnext, hs] at hmem
    exact absurd hmem (by decide)

/-- Behind a keyword, in front of a colon, no token stands. -/
theorem Scan.Shifts.before_colon (h : s.Shifts κ e t s') (hs : s.next = .token t' (':' :: ' ' :: z))
    (he : e ∈ behindKeywords) : s'.next.kind = .unknown := by
  have hrest : s'.rest = ':' :: ' ' :: z := by
    have := h.next.symm.trans hs
    simp_all
  rw [Scan.next, h.expected, hrest]
  exact kind_colon he z

theorem Scan.Shifts.not_unknown (h : s.Shifts κ e t s') (hs : s.next.kind = .unknown) : False := by
  have := h.reaches.eq_of_unknown hs
  have hlen := congrArg (List.length ∘ Scan.taken) this
  simp [h.taken] at hlen

namespace Phrase.Derives

/-- A type is not made of a keyword alone: where one has been taken the colon is nowhere expected,
and so no token is found and none is taken. -/
theorem not_colon_of_keyword {a : Ty} (h : Derives .ty s a s')
    (hs : s.next = .token t (':' :: ' ' :: z)) (hκ : t.kind ∈ Terminal.keywords) :
    s'.next.kind ≠ .colon := by
  rw [← kind_of_token hs] at hκ
  have hstays : ∀ {s₁ : Scan}, s₁.next.kind = .unknown → s₁.Reaches s' → s'.next.kind ≠ .colon := by
    intro s₁ hunknown hreaches
    rw [hreaches.eq_of_unknown hunknown, hunknown]
    decide
  -- Only `impl`, `dyn` and the words of a function type are keywords that start a type.
  cases h with
  | implTrait h hbs => exact hstays (h.before_colon hs (by decide)) hbs.reaches
  | dynTrait h hbs => exact hstays (h.before_colon hs (by decide)) hbs.reaches
  | path hp =>
    cases hp with
    | segments hrooted hsegs =>
      cases hrooted with
      | absent => simp [hsegs.kind_of_segments, Terminal.keywords] at hκ
      | present h => simp [h.kind_next, Terminal.keywords] at hκ
  | qualified h | ref h | unit h | tuple h | paren h | slice h | never h =>
    simp [h.kind_next, Terminal.keywords] at hκ
  | ptr _ h | array _ h => simp [h.kind_next, Terminal.keywords] at hκ
  | fnPtr hls hsafety habi hfn hopen =>
    exfalso
    cases hls with
    | bound hfor hlt => exact hlt.not_unknown (hfor.before_colon hs (by decide))
    | unbound =>
      cases hsafety with
      | present hunsafe =>
        have hunknown := hunsafe.before_colon hs (by decide)
        rw [habi.reaches.eq_of_unknown hunknown] at hfn
        exact hfn.not_unknown hunknown
      | absent =>
        cases habi with
        | absent => exact hopen.not_unknown (hfn.before_colon hs (by decide))
        | bare habiWord => exact hfn.not_unknown (habiWord.before_colon hs (by decide))
        | named habiWord hname => exact hname.not_unknown (habiWord.before_colon hs (by decide))

/-- No predicate starts with a keyword and a colon. -/
theorem predicate_not_keyword (h : Derives .predicate s p s')
    (hs : s.next = .token t (':' :: ' ' :: z)) (hκ : t.kind ∈ Terminal.keywords) : False := by
  cases h with
  | tyPredicate ha hcolon => exact ha.not_colon_of_keyword hs hκ hcolon.kind_next
  | boundPredicate hls _ ha hcolon =>
    cases hls with
    | unbound => exact ha.not_colon_of_keyword hs hκ hcolon.kind_next
    | bound hfor hlt => exact hlt.not_unknown (hfor.before_colon hs (by decide))
  | lifetimePredicate hl =>
    cases hl with
    | lifetime h =>
      rw [← kind_of_token hs, h.kind_next] at hκ
      exact absurd hκ (by decide)

end Phrase.Derives

/-! ## Texts that are refused -/

variable {x : List Char}

/-- The text starts like a list of predicates and is none. -/
def Refused (x : List Char) : Prop :=
  ∀ g, IsLayout g → ∀ᶠ n in atTop, ∀ k taken a s',
    (openList Expected.predicate.contains Expected.predicate (Grammar.predicate n) k).run
      ⟨taken, g ++ x, Expected.predicate⟩ ≠ .ok (a, s')

namespace Refused

theorem of_keyword (h : name ∈ Directive.reserved) (z : List Char) :
    Refused (name.toList ++ ':' :: ' ' :: z) := by
  obtain ⟨κ, hκ, hpredicate, hspelling⟩ := Directive.mem_reserved.mp h
  refine fun g hg => .of_forall fun n k taken a s' hrun => ?_
  have hof := ShadowImpl.of_keyword (z := ':' :: ' ' :: z) hκ hpredicate (by decide) hg
    (by simp [Breaks, isBreak])
  rw [hspelling] at hof
  cases k with
  | zero => simp [openList] at hrun
  | succ k =>
    have hkind : (Scan.mk taken
        (g ++ (name.toList ++ ':' :: ' ' :: z)) Expected.predicate).next.kind = κ :=
      kind_of_eq hof
    rw [openList, run_peek_bind, hkind, if_pos (by simpa using hpredicate)] at hrun
    obtain ⟨p, s₁, hp, -⟩ := run_bind_eq_ok.mp hrun
    exact (Grammar.predicate_derives hp).predicate_not_keyword hof hκ

theorem cons (h : Grammar.PredicateRead p (", ".toList ++ x)) (hx : Refused x) :
    Refused (p.print.toList ++ (", ".toList ++ x)) := by
  intro g hg
  obtain ⟨hkind, e', hseps, hreads⟩ := h.listed g hg
  have hcomma := of_symbol_front (z := ' ' :: x) (hseps .comma (by simp))
  filter_upwards [hreads, hx [' '] isLayout_space] with n hn hx k taken a s' hrun
  cases k with
  | zero => simp [openList] at hrun
  | succ k =>
    obtain ⟨taken', hn⟩ := hn taken
    rw [openList, run_peek_bind, Scan.next, if_pos hkind, run_bind_of_ok hn] at hrun
    rcases run_optional_bind_eq_ok.mp hrun with ⟨t, r, hnext, -, hrun⟩ | ⟨hne, -⟩
    · obtain ⟨-, rfl⟩ : _ = t ∧ _ = r := by simpa using hcomma.symm.trans hnext
      obtain ⟨as, s₁, has, -⟩ := run_bind_eq_ok.mp hrun
      exact hx k _ as s₁ has
    · exact hne (kind_of_eq hcomma)

/-- Baselines are read one by one, up to one of a keyword or to the predicates behind them. -/
theorem behind_baselines {names : List String} (hnames : ∀ name ∈ names, IsName name.toList)
    {qs : List Predicate} (hqs : qs ≠ [])
    (h : Refused (Text.join ", " (qs.map Predicate.print)).toList) :
    Refused (Text.join ", " ((names.map Directive.baseline ++ qs).map Predicate.print)).toList := by
  induction names with
  | nil => simpa using h
  | cons name names ih =>
    obtain ⟨p, ps, hps⟩ :=
      List.exists_cons_of_ne_nil
        (List.append_ne_nil_of_right_ne_nil (names.map Directive.baseline) hqs)
    rw [List.map_cons, List.cons_append, List.map_cons]
    by_cases hname : name ∈ Directive.reserved
    · obtain ⟨r, hr⟩ := exists_join_cons ", " (Directive.baseline name).print
        ((names.map Directive.baseline ++ qs).map Predicate.print)
      rw [hr, Directive.baseline_print, List.append_assoc]
      exact of_keyword hname ("Shadow".toList ++ r)
    · have hrest := ih fun n hn => hnames n (List.mem_cons_of_mem _ hn)
      rw [hps, List.map_cons] at hrest ⊢
      rw [join_cons_cons]
      exact hrest.cons (Directive.baseline_read (hnames name List.mem_cons_self) hname (by simp))

/-- A predicate on a name that is a keyword is refused, whatever comes behind it. -/
theorem of_literal (h : name ∈ Directive.reserved) {bounds : List Bound} (hbounds : bounds ≠ [])
    (qs : List Predicate) :
    Refused (Text.join ", "
      ((.type (.ofIdent name) bounds [] :: qs).map Predicate.print)).toList := by
  have hprint : (Predicate.type (.ofIdent name) bounds []).print.toList =
      name.toList ++ ':' :: ' ' :: (printBounds bounds).toList := by
    obtain ⟨b, bs, rfl⟩ := List.exists_cons_of_ne_nil hbounds
    rw [Predicate.print, Grammar.printBounded_toList, Directive.print_ofIdent]
    simp [printBinder, Grammar.boundChars]
  obtain ⟨r, hr⟩ := exists_join_cons ", " (Predicate.type (.ofIdent name) bounds []).print
    (qs.map Predicate.print)
  rw [List.map_cons, hr, hprint, List.append_assoc]
  exact of_keyword h ((printBounds bounds).toList ++ r)

/-- Baselines are read one by one up to the first one of a keyword. -/
theorem of_baselines {names : List String} (hnames : ∀ name ∈ names, IsName name.toList)
    (h : ∃ name ∈ names, name ∈ Directive.reserved) (qs : List Predicate) :
    Refused (Text.join ", " ((names.map Directive.baseline ++ qs).map Predicate.print)).toList := by
  obtain ⟨name, hmem, hname⟩ := h
  obtain ⟨front, back, rfl⟩ := List.append_of_mem hmem
  have hback := of_literal hname (List.cons_ne_nil (.trait (.ofIdent "Shadow") false []) [])
    (back.map Directive.baseline ++ qs)
  have hall := behind_baselines (fun n hn => hnames n (List.mem_append_left _ hn)) (by simp) hback
  simpa [Directive.baseline] using hall

end Refused

/-- A text that is read is read at every large depth. -/
theorem Reading.eventually_of_parse {α : Type} {reading : Nat → Reading α} {start : Expectation}
    {text : List Char} {p : Parsed α} (hsteady : ∀ n, Grammar.Steady (Offset 0 0) 5 reading n)
    (h : Reading.parse reading start text = .ok p) :
    ∀ᶠ n in atTop, ∃ s', (reading n).run (.start start text) = .ok (p.value, s') := by
  rw [Reading.parse_eq] at h
  cases hrun : (Reading.whole reading (depth text)).run (.start start text) with
  | error s => simp [hrun] at h
  | ok q =>
    obtain ⟨a, s₁⟩ := q
    obtain rfl : ⟨a, s₁.taken.reverse⟩ = p := by simpa [hrun] using h
    filter_upwards [eventually_ge_atTop (depth text)] with n hn
    have halike := whole_steady (hsteady (depth text)) n text.length start none
      (by simp only [depth]; omega) (by simp only [depth] at hn; omega)
    obtain ⟨hok, -⟩ := follow (s := .start start text) (halike.mono_table fun _ _ _ _ => trivial)
      Grammar.eq_lockstep rfl rfl (by simp) (Nat.le_refl _)
    obtain ⟨b, s', -, hrun', rfl, -⟩ := hok a _ hrun trivial
    rw [Reading.whole] at hrun'
    obtain ⟨b', s₂, hb, hrun'⟩ := run_bind_eq_ok.mp hrun'
    obtain ⟨⟨⟩, s₃, -, hrun'⟩ := run_bind_eq_ok.mp hrun'
    obtain ⟨rfl, -⟩ := of_run_pure hrun'
    exact ⟨s₂, hb⟩

theorem Source.predicates_of_refused {text : String} (h : Refused text.toList) (file : String) :
    (Source.predicates ⟨file, text, none⟩).isOk = false := by
  cases hps : Source.predicates ⟨file, text, none⟩ with
  | error => rfl
  | ok ps =>
    obtain ⟨ts, -, hparse, -⟩ := derives_of_predicates hps
    have hruns := Reading.eventually_of_parse (Grammar.predicates_steady (by decide)) hparse
    obtain ⟨n, ⟨s', hrun⟩, hrefused⟩ := (hruns.and (h [] isLayout_nil)).exists
    exact absurd hrun (hrefused n [] ps s')

namespace Directive

/-- What a marker adds, in print, is read again as what it was, if the parameters that it projects
have names that are no keywords where a predicate starts; if one has not, the text is refused. -/
theorem additions_reread {src : Source} {d : Directive} (h : parse src = .ok d)
    (hplain : ∀ p ∈ d.literals, p.view.All Label.Plain) (file : String) :
    ((Source.predicates ⟨file, Text.join ", " (d.additions.map Predicate.print), none⟩).isOk =
      true ↔ ∀ name ∈ d.projected, name ∉ reserved) ∧
    ∀ ps, Source.predicates ⟨file, Text.join ", " (d.additions.map Predicate.print),
      none⟩ = .ok ps → ps = d.additions := by
  have hnames := projected_isName h
  have hliterals : Relisted d.literals := by
    obtain ⟨ms, hms, hfold⟩ := bind_eq_ok_iff.mp h
    obtain ⟨qs, hqs, hread⟩ := literals_relisted hms (fun _ => id) (Source.metas_inTurn hms) hfold
    obtain rfl : d.literals = qs := by simpa using hqs
    exact (hread hplain).1
  -- The first predicate whose subject is a keyword refuses the whole list.
  by_cases hwords : ∀ name ∈ d.projected, name ∉ reserved
  · have hread : Source.predicates ⟨file, Text.join ", " (d.additions.map Predicate.print), none⟩ =
        .ok d.additions :=
      Source.predicates_of_relisted (relisted_baselines hnames hwords hliterals) file
    rw [hread]
    exact ⟨⟨fun _ => hwords, fun _ => rfl⟩, fun ps hps => (Except.ok.inj hps).symm⟩
  · have hrefused : (Source.predicates
        ⟨file, Text.join ", " (d.additions.map Predicate.print), none⟩).isOk = false :=
      Source.predicates_of_refused
        (Refused.of_baselines hnames (by simpa using hwords) d.literals) file
    refine ⟨by simp [hrefused, hwords], fun ps hps => ?_⟩
    rw [hps] at hrefused
    simp [Except.isOk, Except.toBool] at hrefused

/-- A parameter with the name of a keyword that has no meaning where a predicate starts. -/
theorem additions_reread_where :
    ∃ d, parse ⟨"a.rs", "transform_bounds(T, where), bounds(U: Fn(T))", none⟩ =
    .ok d ∧ (∀ p ∈ d.literals, p.view.All Label.Plain) ∧ d.projected = ["T", "where"] ∧
      ((Source.predicates ⟨"b.rs", Text.join ", " (d.additions.map Predicate.print), none⟩).isOk =
        true ↔ ∀ name ∈ d.projected, name ∉ reserved) ∧
      ∀ ps, Source.predicates ⟨"b.rs", Text.join ", " (d.additions.map Predicate.print),
        none⟩ = .ok ps → ps = d.additions := by
  have hvalue : (parse ⟨"a.rs", "transform_bounds(T, where), bounds(U: Fn(T))", none⟩).toOption.map
      (fun d => (d.projected, d.literals.flatMap fun p => p.view.labels)) = some (["T", "where"],
        [.tyPredicate [], .pathTy, .path false, .segment "U", .traitBound false [], .path false,
          .segment "Fn", .parenArgs, .pathTy, .path false, .segment "T"]) := by
    decide +kernel
  obtain ⟨d, hd, hboth⟩ := exists_of_map hvalue
  obtain ⟨hprojected, hlabels⟩ := Prod.mk.inj hboth
  have hnames : ∀ name ∈ ["U", "Fn", "T"], ∀ κ ∈ Terminal.keywords, κ.spelling ≠ name.toList := by
    decide +kernel
  have hall : ∀ l ∈ d.literals.flatMap fun p => p.view.labels, l.Plain := by
    rw [hlabels]
    simpa [Label.Plain] using hnames
  have hplain : ∀ p ∈ d.literals, p.view.All Label.Plain :=
    fun p hp l hl => hall l (List.mem_flatMap.mpr ⟨p, hp, hl⟩)
  exact ⟨d, hd, hplain, hprojected, additions_reread hd hplain "b.rs"⟩

/-- A name that is a keyword where a predicate starts can stand in a literal predicate behind a
binder without lifetimes. The binder is not printed, and then what the marker adds is refused. -/
theorem additions_refused_of_literal {src : Source} {d : Directive} (h : parse src = .ok d)
    {name : String} (hname : name ∈ reserved) {bounds : List Bound} (hbounds : bounds ≠ [])
    {ps : List Predicate} (hliterals : d.literals = .type (.ofIdent name) bounds [] :: ps)
    (file : String) :
    (Source.predicates ⟨file, Text.join ", " (d.additions.map Predicate.print), none⟩).isOk =
      false := by
  refine Source.predicates_of_refused ?_ file
  rw [additions, baselines, hliterals]
  exact .behind_baselines (projected_isName h) (by simp) (.of_literal hname hbounds ps)

example : (parse ⟨"a.rs", "bounds(for<> for: Clone)", none⟩).toOption.map
    (fun d => d.additions.map Predicate.print) = some ["for: Clone"] := by
  decide +kernel

/-- The parameters of a marker may be called `fn`, and what the marker adds then is no list of
predicates. -/
theorem additions_refused :
    ∃ d, parse ⟨"a.rs", "transform_bounds(fn)", none⟩ = .ok d ∧ d.literals = [] ∧
    (Source.predicates ⟨"b.rs", Text.join ", " (d.additions.map Predicate.print), none⟩).isOk =
      false := by
  have hvalue : (parse ⟨"a.rs", "transform_bounds(fn)", none⟩).toOption.map
      (fun d => (d.projected, d.literals.isEmpty)) = some (["fn"], true) := by
    decide +kernel
  obtain ⟨d, hd, hboth⟩ := exists_of_map hvalue
  obtain ⟨hprojected, hempty⟩ := Prod.mk.inj hboth
  have hliterals : d.literals = [] := List.isEmpty_iff.mp hempty
  refine ⟨d, hd, hliterals, ?_⟩
  rw [additions, baselines, hprojected, hliterals]
  decide +kernel

end Directive

end ShadowImpl
