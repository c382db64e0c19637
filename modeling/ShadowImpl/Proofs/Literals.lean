import ShadowImpl.Proofs.Additions
import ShadowImpl.Proofs.EntryPoints
import ShadowImpl.Proofs.Prolonging

/-!
# Predicates that are written anywhere

A predicate that has been read in front of a text that closes everything is read again, in print, in
front of any separator. This holds as well of the literal predicates of markers, which are read out
of the text between the brackets of their lists.
-/

namespace ShadowImpl

open Filter Lexeme Recogniser Reading

variable {s s' : Scan} {u y z : List Char} {n : Nat} {vs : List String} {α : Type} {p : Predicate}

/-! ## Predicates in print -/

/-- In print, the predicate is read as what it is, at the end of the text and in front
of a separator. -/
def Predicate.Legible (p : Predicate) : Prop :=
  ∀ z, (∀ c ∈ z.head?, c ∈ [',', ';']) → Grammar.PredicateRead p z

theorem shuts_trailer (h : Shuts u) : Shuts (trailer u) :=
  fun m => infix_trailer.mpr (h m)

namespace Phrase.Derives

theorem predicate_legible (h : Derives .predicate s p s') (hshuts : Shuts s'.rest)
    (hplain : p.view.All Label.Plain) (projected : List String) : (p.project projected).Legible :=
  fun z hz => h.legible (k := .predicate) hplain projected ⟨hz, hshuts.quiet z⟩

theorem predicates_legible {ps : List Predicate} (h : Derives .predicates s ps s')
    (hshuts : Shuts s'.rest) (projected : List String) :
    ∀ p ∈ ps, p.view.All Label.Plain → (p.project projected).Legible := by
  induction ps generalizing s with
  | nil => simp
  | cons p ps ih =>
    rw [List.forall_mem_cons]
    cases h with
    | predicatesLast hp =>
        exact ⟨fun hplain => hp.predicate_legible hshuts hplain projected, by simp⟩
    | predicatesCons hp hcomma hps =>
      have hbehind := hshuts.of_suffix (hcomma.reaches.trans hps.reaches).rest_suffix
      exact ⟨fun hplain => hp.predicate_legible hbehind hplain projected, ih hps⟩

end Phrase.Derives

/-! ## Lists of arguments -/

/-- Each of the texts stands between brackets in front of `y`. -/
def StandBefore (vs : List String) (y : List Char) : Prop :=
  ∀ v ∈ vs, ∃ u, Enclosed v.toList u ∧ y <:+ u

theorem StandBefore.nil : StandBefore [] y := by
  simp [StandBefore]

theorem StandBefore.of_suffix (h : StandBefore vs y) (hz : z <:+ y) : StandBefore vs z := by
  intro v hv
  obtain ⟨u, henclosed, hy⟩ := h v hv
  exact ⟨u, henclosed, hz.trans hy⟩

theorem StandBefore.append {ws : List String} (hvs : StandBefore vs y) (hws : StandBefore ws y) :
    StandBefore (vs ++ ws) y := by
  intro v hv
  exact (List.mem_append.mp hv).elim (hvs v) (hws v)

/-- The lists of arguments of these attributes stand in front of `y`. -/
def AttributesBefore (as : List (Attribute α)) (y : List Char) : Prop :=
  StandBefore (as.flatMap Attribute.arguments) y

namespace Grammar

variable {as : List (Attribute Extent)}

theorem list_standBefore {f : MetaForm Extent}
    (h : (do
      let first ← mark
      group n
      return MetaForm.list (inside (← textFrom first)) (Extent.mk first (← mark))).run s =
        .ok (f, s')) : StandBefore f.arguments s'.rest := by
  obtain ⟨v, x, c, hv, -, henclosed⟩ := list_split h
  rw [hv]
  intro w hw
  obtain rfl := List.mem_singleton.mp hw
  exact ⟨_, henclosed, List.suffix_append c _⟩

theorem metaItem_standBefore {m : Meta Extent} (h : (metaItem n).run s = .ok (m, s')) :
    StandBefore m.form.arguments s'.rest := by
  rw [metaItem, run_mark_bind] at h
  obtain ⟨path, s₁, -, h⟩ := run_bind_eq_ok.mp h
  obtain ⟨form, s₂, hform, h⟩ := run_bind_eq_ok.mp h
  rw [run_mark_bind] at h
  obtain ⟨rfl, rfl⟩ := of_run_pure h
  rw [metaForm, run_peek_bind] at hform
  split at hform
  · exact list_standBefore hform
  · exact list_standBefore hform
  · exact list_standBefore hform
  · obtain ⟨t, r, -, hform⟩ := run_shift_bind_eq_ok.mp hform
    obtain ⟨⟨⟩, s₃, -, hform⟩ := run_bind_eq_ok.mp hform
    obtain ⟨rfl, -⟩ := of_run_pure hform
    exact .nil
  · obtain ⟨rfl, -⟩ := of_run_pure hform
    exact .nil

theorem metaItems_standBefore {starts : Terminal → Bool} {after : Expectation} {k : Nat}
    {ms : List (Meta Extent)} (h : (openList starts after (metaItem k) n).run s = .ok (ms, s')) :
    StandBefore (ms.flatMap fun m => m.form.arguments) s'.rest := by
  refine openList_induction
    (P := fun _ ms => StandBefore (ms.flatMap fun m => m.form.arguments) s'.rest)
    (fun _ => .nil) ?_ ?_ h
  · intro s m hm _
    simpa using metaItem_standBefore hm
  · intro s s₁ t r m ms n hm hnext _ hms ih
    have hreach := Scan.Reaches.step hnext (Scan.reaches_of_run hms)
    exact ((metaItem_standBefore hm).of_suffix hreach.rest_suffix).append ih

theorem bracketed_before {style : AttrStyle} {after : Expectation} {first : Nat}
    {a : Attribute Extent} (h : (bracketed style after first n).run s = .ok (a, s')) :
    StandBefore a.arguments s'.rest := by
  rw [bracketed] at h
  obtain ⟨t, r, -, -, h⟩ := run_token_bind_eq_ok.mp h
  obtain ⟨m, s₁, hm, h⟩ := run_bind_eq_ok.mp h
  obtain ⟨t', r', hnext, -, h⟩ := run_token_bind_eq_ok.mp h
  rw [run_textFrom_bind, run_mark_bind] at h
  obtain ⟨rfl, rfl⟩ := of_run_pure h
  rw [Attribute.arguments, Option.toList_some, List.flatMap_singleton]
  refine (metaItem_standBefore hm).of_suffix ?_
  rw [(Next.of_eq_token hnext).1]
  exact List.suffix_append _ _

theorem attributes_before (h : (attributes n).run s = .ok (as, s')) :
    AttributesBefore as s'.rest := by
  induction n generalizing s as with
  | zero => simp [attributes] at h
  | succ n ih =>
    rw [attributes, run_peek_bind] at h
    split at h
    · obtain ⟨a, s₁, ha, h⟩ := run_bind_eq_ok.mp h
      obtain ⟨as', s₂, has, h⟩ := run_bind_eq_ok.mp h
      obtain ⟨rfl, rfl⟩ := of_run_pure h
      rw [AttributesBefore, List.flatMap_cons, docAttribute_arguments ha]
      exact ih has
    · rw [run_mark_bind] at h
      obtain ⟨t, r, -, h⟩ := run_shift_bind_eq_ok.mp h
      obtain ⟨a, s₁, ha, h⟩ := run_bind_eq_ok.mp h
      obtain ⟨as', s₂, has, h⟩ := run_bind_eq_ok.mp h
      obtain ⟨rfl, rfl⟩ := of_run_pure h
      exact ((bracketed_before ha).of_suffix (Scan.reaches_of_run has).rest_suffix).append (ih has)
    · obtain ⟨rfl, -⟩ := of_run_pure h
      exact .nil

/-- Of the attributes of a body, those of its first item. -/
theorem bodyAttributes_before {as : List (Attribute Extent) × List (Attribute Extent)}
    (h : (bodyAttributes n).run s = .ok (as, s')) : AttributesBefore as.2 s'.rest := by
  -- By induction on the inner attributes, which come first.
  induction n generalizing s as with
  | zero => simp [bodyAttributes] at h
  | succ n ih =>
    rw [bodyAttributes, run_peek_bind] at h
    split at h
    · obtain ⟨a, s₁, -, h⟩ := run_bind_eq_ok.mp h
      obtain ⟨as', s₂, has, h⟩ := run_bind_eq_ok.mp h
      obtain ⟨rfl, rfl⟩ : _ = as ∧ s₂ = s' := by simpa using h
      exact (ih has :)
    · rw [run_mark_bind] at h
      obtain ⟨t, r, -, h⟩ := run_shift_bind_eq_ok.mp h
      rcases run_optional_bind_eq_ok.mp h with ⟨t', r', -, -, h⟩ | ⟨-, h⟩
      · obtain ⟨a, s₁, -, h⟩ := run_bind_eq_ok.mp h
        obtain ⟨as', s₂, has, h⟩ := run_bind_eq_ok.mp h
        obtain ⟨rfl, rfl⟩ : _ = as ∧ s₂ = s' := by simpa using h
        exact (ih has :)
      · obtain ⟨a, s₁, ha, h⟩ := run_bind_eq_ok.mp h
        obtain ⟨as', s₂, has, h⟩ := run_bind_eq_ok.mp h
        obtain ⟨rfl, rfl⟩ : _ = as ∧ s₂ = s' := by simpa using h
        exact ((bracketed_before ha).of_suffix (Scan.reaches_of_run has).rest_suffix).append
          (attributes_before has)
    · obtain ⟨as', s₂, has, h⟩ := run_bind_eq_ok.mp h
      obtain ⟨rfl, rfl⟩ : _ = as ∧ s₂ = s' := by simpa using h
      exact attributes_before has

theorem items_before {is : List (Item Extent)} (h : (items as n).run s = .ok (is, s'))
    (has : AttributesBefore as s.rest) : ∀ i ∈ is, AttributesBefore i.attrs s'.rest := by
  induction n generalizing s as is with
  | zero => simp [items] at h
  | succ n ih =>
    rw [items, run_peek_bind] at h
    split at h
    · obtain ⟨t, r, -, h⟩ := run_shift_bind_eq_ok.mp h
      obtain ⟨rfl, -⟩ : is = [] ∧ _ := by simpa using h
      simp
    · have hreach := Scan.reaches_of_run h
      obtain ⟨i, s₁, hi, h⟩ := run_bind_eq_ok.mp h
      obtain ⟨as', s₂, has', h⟩ := run_bind_eq_ok.mp h
      obtain ⟨is', s₃, his, h⟩ := run_bind_eq_ok.mp h
      obtain ⟨rfl, rfl⟩ : _ = is ∧ s₃ = s' := by simpa using h
      rw [List.forall_mem_cons, (item_attrs as n).of_run hi]
      exact ⟨has.of_suffix hreach.rest_suffix, ih his (attributes_before has')⟩

/-- The lists of arguments of the attributes in a block stand in front of what is left. -/
theorem implBlock_before {b : ImplBlock Extent} (h : (implBlock n).run s = .ok (b, s')) :
    AttributesBefore b.attrs s'.rest ∧ ∀ i ∈ b.items, AttributesBefore i.attrs s'.rest := by
  rw [implBlock_eq, run_mark_bind] at h
  obtain ⟨attrs, s₁, hattrs, hblock⟩ := run_bind_eq_ok.mp h
  obtain ⟨as, s₂, s₃, has, his⟩ := exists_items_of_blockAfter hblock
  refine ⟨?_, items_before his (bodyAttributes_before has)⟩
  rw [(blockAfter_attrs _ _ _).of_run hblock]
  exact (attributes_before hattrs).of_suffix (Scan.reaches_of_run hblock).rest_suffix

end Grammar

/-! ## Literal predicates -/

/-- Lists of arguments between the brackets of a list stand in front of what is behind it. -/
theorem Source.metas_standBefore {file args : String} {ms : List (Meta Location)}
    (h : Source.metas ⟨file, args, none⟩ = .ok ms) (hv : Enclosed args.toList u) :
    StandBefore (ms.flatMap fun m => m.form.arguments) (trailer u) := by
  obtain ⟨f, ms₀, s', rfl, hrun, hrest⟩ := exists_run_trailer hv metas_steady h
  simp only [List.flatMap_map, Meta.map, MetaForm.arguments_map]
  exact (Grammar.metaItems_standBefore hrun).of_suffix hrest

namespace Directive

variable {args : String} {d d₀ : Directive}

/-- The predicate is read out of a list of arguments of `ms`. -/
def ReadFrom (file : String) (ms : List (Meta Location)) (p : Predicate) : Prop :=
  ∃ args ∈ ms.flatMap fun m => m.form.arguments, ∃ ps,
    Source.predicates ⟨file, args, none⟩ = .ok ps ∧ p ∈ ps

theorem literals_readFrom {src : Source} {ms later : List (Meta Location)}
    (hms : src.metas = .ok ms) (hsub : ∀ m ∈ later, m ∈ ms)
    (h : later.foldlM (follow src) d₀ = .ok d) : ∀ p ∈ d.literals, p ∈ d₀.literals ∨
    ReadFrom src.file ms p := by
  induction later generalizing d₀ with
  | nil =>
    obtain rfl : d₀ = d := Except.ok.inj h
    exact fun p => .inl
  | cons m later ih =>
    rw [List.foldlM_cons] at h
    obtain ⟨d₁, hd₁, h⟩ := bind_eq_ok_iff.mp h
    have hm := hsub m (by simp)
    intro p hp
    obtain ⟨args, group, hform, ⟨ns, -, rfl⟩ | ⟨ps, hps, rfl⟩⟩ := follow_cases hd₁
    · rw [← (projected_foldl_project ns d₀).2]
      exact ih (fun m hm => hsub m (by simp [hm])) h p hp
    · refine (ih (fun m hm => hsub m (by simp [hm])) h p hp).elim (fun hp => ?_) .inr
      refine (List.mem_append.mp hp).imp_right fun hp => ⟨args, ?_, ps, ?_, hp⟩
      · exact List.mem_flatMap.mpr ⟨m, hm, by rw [hform]; exact List.mem_singleton_self args⟩
      · exact predicates_alone hms hm hform hps

/-- What is added is legible. -/
structure Legible (d : Directive) : Prop where
  names : ∀ name ∈ d.projected, IsName name.toList
  literals : ∀ p ∈ d.literals, p.view.All Label.Plain → p.Legible

theorem legible_empty : ({} : Directive).Legible :=
  ⟨by simp, by simp⟩

theorem Legible.merge {d' : Directive} (h : d.Legible) (h' : d'.Legible) :
    (d.merge d').Legible where
  names _ hname := (mem_foldl_project hname).elim (h.names _) (h'.names _)
  literals p hp := by
    rw [Directive.merge, List.mem_append, (projected_foldl_project _ _).2] at hp
    exact hp.elim (h.literals p) (h'.literals p)

/-- A list of arguments in front of a text that closes everything adds what is legible. -/
theorem legible_of_enclosed {file : String} (h : parse ⟨file, args, none⟩ = .ok d)
    (hv : Enclosed args.toList u) (hu : Shuts u) : d.Legible where
  names := projected_isName h
  literals := by
    intro p hp hplain
    obtain ⟨ms, hms, h⟩ := bind_eq_ok_iff.mp h
    rcases literals_readFrom hms (fun _ => id) h p hp with hp | ⟨w, hw, ps, hps, hp⟩
    · simp at hp
    · obtain ⟨u', hw', hu'⟩ := Source.metas_standBefore hms hv w hw
      obtain ⟨s', hderives, hrest⟩ := Source.derives_enclosed hps hw'
      have hshuts := (shuts_trailer ((shuts_trailer hu).of_suffix hu')).of_suffix hrest
      have hlegible := hderives.predicates_legible hshuts [] p hp hplain
      rwa [Predicate.project_nil] at hlegible

end Directive

variable {d d₀ : Directive}

/-- What the arguments of an attribute add is legible if they stand in front of a text that closes
everything. -/
theorem Attribute.legible_of_parse {a : Attribute α} (ha : StandBefore a.arguments y) (hy : Shuts y)
    (h : Directive.parse ⟨argsFile, a.argsText, none⟩ = .ok d) : d.Legible := by
  have hnone : Directive.parse ⟨argsFile, "", none⟩ = .ok {} := rfl
  rcases a with ⟨style, _ | ⟨path, form, place⟩, text, place'⟩
  · exact Except.ok.inj (hnone.symm.trans h) ▸ Directive.legible_empty
  · cases form with
    | word | value => exact Except.ok.inj (hnone.symm.trans h) ▸ Directive.legible_empty
    | list args group =>
      obtain ⟨u, hv, hu⟩ := ha args (by simp [arguments, MetaForm.arguments])
      exact Directive.legible_of_enclosed h hv (hy.of_suffix hu)

/-- A marker adds what its arguments ask for, and any other attribute nothing. -/
theorem Method.followAlone_cases {a : Attribute Unit} (h : followAlone d₀ a = .ok d) : d = d₀ ∨
    ∃ d', Directive.parse ⟨argsFile, a.argsText, none⟩ = .ok d' ∧ d = d₀.merge d' := by
  rw [followAlone] at h
  split at h
  · split at h
    · simp at h
    · rename_i args group hform
      obtain ⟨d', hd', h⟩ := bind_eq_ok_iff.mp h
      refine .inr ⟨d', ?_, (Except.ok.inj h).symm⟩
      rw [Attribute.argsText, hform]
      exact hd'
    · exact .inl (Except.ok.inj h).symm
  · exact .inl (Except.ok.inj h).symm

/-- What the markers of a method add. -/
theorem Method.legible_followAlone {as : List (Attribute Unit)} (has : AttributesBefore as y)
    (hy : Shuts y) (hd₀ : d₀.Legible) (h : as.foldlM followAlone d₀ = .ok d) : d.Legible := by
  induction as generalizing d₀ with
  | nil => exact Except.ok.inj h ▸ hd₀
  | cons a as ih =>
    rw [List.foldlM_cons] at h
    obtain ⟨d₁, hd₁, h⟩ := bind_eq_ok_iff.mp h
    refine ih (fun v hv => has v (by simp [hv])) ?_ h
    rcases followAlone_cases hd₁ with rfl | ⟨d', hd', rfl⟩
    · exact hd₀
    · exact hd₀.merge (a.legible_of_parse (fun v hv => has v (by simp [hv])) hy hd')

end ShadowImpl
