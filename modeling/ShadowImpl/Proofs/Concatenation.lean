import ShadowImpl.Proofs.EntryPoints
import ShadowImpl.Proofs.FileNames
import ShadowImpl.Proofs.Isolation
import ShadowImpl.Proofs.Mentions
import ShadowImpl.Proofs.MetaLists

/-!
# Arguments of markers one behind the other

The arguments of two markers may stand in one marker, with a line and a comma between them. Then
they ask for what the two markers ask for together.
-/

namespace ShadowImpl

/-! ## What meta items mention -/

theorem Meta.sameButPlace_self (m : Meta Extent) : m.SameButPlace m := by
  rcases m with ⟨path, form, place⟩
  refine ⟨rfl, ?_, trivial⟩
  cases form with
  | word => exact .word
  | list => exact .list trivial
  | value => exact .value

namespace Source

variable {s s' : Source} {ts ts' : List Token} {rest rest' : List Char}

/-- Meta items that have been read as the same, each in its source. -/
theorem sameMeta_of_sameButPlace {m m' : Meta Extent} (h : m.SameButPlace m')
    (hs : s.text.toList = Token.spelled ts ++ rest)
    (hs' : s'.text.toList = Token.spelled ts' ++ rest') (hm : m.form.Sound ts)
    (hm' : m'.form.Sound ts') (file file' : String) (text text' : List Char) :
    SameMeta s s' (m.map (Extent.located file text ts))
      (m'.map (Extent.located file' text' ts')) := by
  rcases m with ⟨path, form, place⟩
  rcases m' with ⟨path', form', place'⟩
  refine ⟨h.path, ?_⟩
  cases h.form with
  | word => exact .word
  | value => exact .value
  | list =>
    exact .list (holds_interior (p := []) (q := []) (by simp) hs hm file text)
      (holds_interior (p := []) (q := []) (by simp) hs' hm' file' text')

theorem mentions_agree {m m' : Meta Location} (h : SameMeta s s' m m') :
    Agree Fault.SameCause Eq (m.mentions s) (m'.mentions s') := by
  rcases m with ⟨path, form, place⟩
  rcases m' with ⟨path', form', place'⟩
  obtain rfl : path = path' := h.path
  simp only [Meta.mentions]
  cases Keyword.ofPath? path with
  | none => exact .error rfl
  | some k =>
    cases h.form with
    | word | value => cases k <;> exact .error rfl
    | list hr hr' =>
      cases k with
      | transformBounds => exact (names_agree hr hr').bind fun a b hab => .ok (by rw [hab])
      | addBounds => exact (predicates_agree hr hr').bind fun a b hab => .ok (by rw [hab])

/-- A meta item that mentions something has a list of arguments. -/
theorem arguments_of_mentions {m : Meta Location} {n : Mentions} (h : m.mentions s = .ok n) :
    m.form.arguments ≠ [] := by
  rcases m with ⟨path, form, place⟩
  cases form with
  | list => exact List.cons_ne_nil _ _
  | word | value =>
    simp only [Meta.mentions] at h
    cases hk : Keyword.ofPath? path with
    | none => simp [hk] at h
    | some k => cases k <;> simp [hk] at h

end Source

/-- The attributes of an item that has been read are found where it was read. -/
theorem Source.foundIn_of_item {file text : String} {i : Item Location}
    (h : Source.item ⟨file, text, none⟩ = .ok i) : ∀ a ∈ i.attrs, a.FoundIn ⟨file, text, none⟩ := by
  obtain ⟨i₀, s', hrun, htext, rfl⟩ := exists_run h
  obtain ⟨attrs, s₁, hattrs, hitem⟩ := Reading.run_bind_eq_ok.mp hrun
  intro a ha
  rw [Item.attrs_map, (Grammar.item_attrs _ _).of_run hitem] at ha
  obtain ⟨a₀, ha₀, rfl⟩ := List.mem_map.mp ha
  have hsound := Grammar.attributes_sound _ hattrs a₀ ha₀
  exact Attribute.foundIn_of_sound htext (hsound.later (Reading.later_of_run hitem)) _

/-! ## Lists of meta items -/

namespace MetaList

open Source

variable {a b : String} {ms ms' : List (Meta Extent)} {ts ts' : List Token} {g g' : List Char}

theorem sound {x : List Char} (h : MetaList x ms ts g) : ∀ m ∈ ms, m.form.Sound ts :=
  (metas_sound h.parse).2

/-- What the items mention, read in the text that they have been read from. -/
theorem mentions_eq (h : MetaList a.toList ms ts g) (file : String) :
    Source.mentions ⟨file, a, none⟩ =
    ((ms.map (Meta.map (Extent.located file a.toList ts))).mapM (Meta.mentions ⟨file, a, none⟩)).map
      Mentions.join := by
  have hmetas : Source.metas ⟨file, a, none⟩ =
      .ok (ms.map (Meta.map (Extent.located file a.toList ts))) := by
    simp only [metas, metasM, Source.parseM_plain, chars, h.parse]
  rw [Source.mentions, hmetas]
  rfl

theorem exists_of_parse {file : String} {d : Directive}
    (h : Directive.parse ⟨file, b, none⟩ = .ok d) : ∃ ms ts g, MetaList b.toList ms ts g := by
  obtain ⟨ms, hms, -⟩ := bind_eq_ok_iff.mp h
  obtain ⟨ms₀, ts, hparse, -⟩ := exists_parsed hms
  obtain ⟨s, -, -, htext⟩ := Reading.exists_run hparse
  exact ⟨ms₀, ts, s.rest, hparse, htext⟩

/-- The directive is told what the items mention. -/
theorem exists_told (h : MetaList a.toList ms ts g) {file : String} {d : Directive}
    (hd : Directive.parse ⟨file, a, none⟩ = .ok d) : ∃ parts, (ms.map (Meta.map (Extent.located file
      a.toList ts))).mapM (Meta.mentions ⟨file, a, none⟩) = .ok parts ∧
      d = .told (.join parts) := by
  rw [Directive.parse_eq, h.mentions_eq file] at hd
  cases hparts : (ms.map (Meta.map (Extent.located file a.toList ts))).mapM
      (Meta.mentions ⟨file, a, none⟩) with
  | error f => simp [hparts, Except.map] at hd
  | ok parts =>
    refine ⟨parts, rfl, ?_⟩
    simpa [hparts, Except.map] using hd.symm

/-- Items that have been read as the same from two texts mention the same. -/
theorem mentions_of_sameButPlace {file : String} (file' : String) {parts : List Mentions}
    (h : List.Forall₂ Meta.SameButPlace ms ms') {rest rest' : List Char}
    (ha : a.toList = Token.spelled ts ++ rest) (hb : b.toList = Token.spelled ts' ++ rest')
    (hms : ∀ m ∈ ms, m.form.Sound ts) (hms' : ∀ m ∈ ms', m.form.Sound ts')
    (hparts : (ms.map (Meta.map (Extent.located file a.toList ts))).mapM
      (Meta.mentions ⟨file, a, none⟩) = .ok parts) :
    (ms'.map (Meta.map (Extent.located file' b.toList ts'))).mapM (Meta.mentions ⟨file', b, none⟩) =
      .ok parts := by
  have hsame : List.Forall₂ (SameMeta ⟨file, a, none⟩ ⟨file', b, none⟩)
      (ms.map (Meta.map (Extent.located file a.toList ts)))
      (ms'.map (Meta.map (Extent.located file' b.toList ts'))) := by
    rw [List.forall₂_map_left_iff, List.forall₂_map_right_iff]
    clear hparts
    induction h with
    | nil => exact .nil
    | cons hm _ ih =>
      rw [List.forall_mem_cons] at hms hms'
      exact .cons (sameMeta_of_sameButPlace hm ha hb hms.1 hms'.1 _ _ _ _) (ih hms.2 hms'.2)
  have hagree := Agree.mapM (S := Eq) (fun _ _ h => mentions_agree h) hsame
  rw [hparts, List.forall₂_eq_eq_eq] at hagree
  exact hagree.eq_ok

end MetaList

/-! ## Directives -/

/-- Arguments that have a meta item and end in no comma, and other arguments on the next line behind
a comma ask for what both ask for, if the first leave nothing open that the others close. -/
theorem Directive.parse_append {a b : String} {ms : List (Meta Extent)}
    {ts : List Token} {g : List Char} (ha : MetaList a.toList ms ts g) (hms : ms ≠ [])
    (hcomma : ∀ t ∈ ts.getLast?, t.kind ≠ .comma) {file file' : String} {d d' : Directive}
    (hd : parse ⟨file, a, none⟩ = .ok d) (hd' : parse ⟨file', b, none⟩ = .ok d') {C : Scan → Prop}
    (hstart : C (.start Expected.metaItem a.toList))
    (hC : ∀ s₁ : Scan, s₁.taken.reverse = ts → s₁.rest = g → s₁.next.kind = .eof →
      Bears s₁ ('\n' :: ',' :: b.toList) C) (file'' : String) :
    parse ⟨file'', a ++ "\n," ++ b, none⟩ = .ok (d.merge d') := by
  obtain ⟨ms', ts', g', hb⟩ := MetaList.exists_of_parse hd'
  obtain ⟨parts, hparts, rfl⟩ := ha.exists_told hd
  obtain ⟨parts', hparts', rfl⟩ := hb.exists_told hd'
  have hlists : ∀ m ∈ ms, m.form.arguments ≠ [] := by
    have hall := (mapM_eq_ok_iff.mp hparts).imp fun _ _ h => And.intro
      (Source.arguments_of_mentions h) h
    rw [List.forall₂_and_left, List.forall_mem_map] at hall
    simpa [Meta.map] using hall.1
  obtain ⟨ns, us, hboth, hns⟩ := ha.append hb hms hcomma hlists hstart hC
  have htext : (a ++ "\n," ++ b).toList = a.toList ++ '\n' :: ',' :: b.toList := by simp
  rw [← htext] at hboth
  have hsound := hboth.sound
  rw [List.forall_mem_append] at hsound
  -- What an item mentions depends on the text in its brackets, not on where they are.
  have hfirst := MetaList.mentions_of_sameButPlace file''
    (List.forall₂_same.mpr fun m _ => m.sameButPlace_self) ha.text hboth.text
      ha.sound hsound.1 hparts
  have hsecond := MetaList.mentions_of_sameButPlace file'' hns hb.text hboth.text hb.sound
    hsound.2 hparts'
  rw [Directive.parse_eq, hboth.mentions_eq, List.map_append, List.mapM_append, hfirst, hsecond]
  simp only [ok_bind]
  exact congrArg Except.ok (by rw [Mentions.join_append, merge_told])

/-- Under another name the same arguments ask for the same. -/
theorem Directive.parse_renamed {file text : String} {d : Directive}
    (h : parse ⟨file, text, none⟩ = .ok d) (file' : String) :
    parse ⟨file', text, none⟩ = .ok d := by
  have hagree := parse_under ⟨file, text, none⟩ file'
  rw [h] at hagree
  exact hagree.eq_ok

theorem Directive.foldl_project_foldl (names : List String) (d e : Directive) :
    (names.foldl project e).projected.foldl project d =
      names.foldl project (e.projected.foldl project d) := by
  induction names generalizing e with
  | nil => rfl
  | cons name names ih =>
    rw [List.foldl_cons, ih, List.foldl_cons]
    congr 1
    -- A name that `e` has already has reached `d` with the others.
    by_cases h : name ∈ e.projected
    · have hd : name ∈ (e.projected.foldl project d).projected := by
        rw [(projected_foldl_project _ _).1]
        by_cases hd : name ∈ d.projected <;> simp [List.mem_eraseDups, List.removeAll, h, hd]
      simp [project, h, hd]
    · simp [project, h]

theorem Directive.merge_assoc (d e f : Directive) : (d.merge e).merge f = d.merge (e.merge f) := by
  ext1
  · have hfold := (congrArg projected (foldl_project_foldl f.projected d e)).trans
      (projected_foldl_project f.projected (e.projected.foldl project d)).1
    exact (projected_foldl_project f.projected (d.merge e)).1.trans hfold.symm
  · simp only [merge, (projected_foldl_project _ _).2, List.append_assoc]

/-! ## Faults -/

/-- The fault is one of a marker's arguments. -/
def Fault.Malformed (f : Fault) : Prop :=
  f.cause.category = .directive

section Malformed

variable {α β : Type}

/-- Every fault of the result is one of a marker's arguments. -/
abbrev OnlyMalformed (x : Except Fault α) : Prop :=
  Agree (fun f _ => f.Malformed) Eq x x

theorem Source.parse_onlyMalformed (s : Source) {goal : Goal} (hgoal : goal.isList = true)
    (start : Expectation) (reading : Nat → Reading α) (place : (Extent → Location) → α → β) :
    OnlyMalformed (s.parse goal start reading place) := by
  rw [Source.parse, Source.parseM_plain]
  split
  · exact .ok rfl
  · exact .error (by simp [Fault.Malformed, Cause.category, hgoal])

theorem Directive.follow_onlyMalformed (s : Source) (d : Directive) (m : Meta Location) :
    OnlyMalformed (follow s d m) := by
  rcases m with ⟨path, form, place⟩
  simp only [follow, followM, Engine.settle_plain, Source.namesM_plain, Source.predicatesM_plain]
  cases Keyword.ofPath? path with
  | none => exact .error rfl
  | some k =>
    cases form with
    | word | value => cases k <;> exact .error rfl
    | list args group =>
      cases k with
      | transformBounds =>
        exact (Source.parse_onlyMalformed _ rfl _ _ _).bind fun _ _ h => .ok (by rw [h])
      | addBounds =>
        exact (Source.parse_onlyMalformed _ rfl _ _ _).bind fun _ _ h => .ok (by rw [h])

theorem Directive.parse_onlyMalformed (s : Source) : OnlyMalformed (parse s) := by
  refine (Source.parse_onlyMalformed s rfl _ _ _).bind fun ms _ hms => ?_
  subst hms
  refine Agree.foldlM (R := Eq) (S := Eq) (fun d _ m _ hd hm => ?_)
    (List.forall₂_same.mpr fun _ _ => rfl) rfl
  subst hd hm
  exact follow_onlyMalformed s d m

end Malformed

/-! ## Methods -/

section Methods

variable {σ : Type} {file text : String} {m : Method Location}

/-- The form of an attribute that is a method marker. -/
def Attribute.markerForm? (a : Attribute σ) : Option (MetaForm Unit) :=
  if a.isThe .method then a.content.map fun c => c.form.map fun _ => () else none

namespace Method

/-- The forms of a method's markers, in order. -/
def markers (m : Method σ) : List (MetaForm Unit) :=
  m.attrs.filterMap Attribute.markerForm?

/-- Follows a marker of this form. -/
def followForm (d : Directive) : MetaForm Unit → Except Fault Directive
  | .value => .error ⟨.markerWithValue .method, none⟩
  | .list args _ => do return d.merge (← Directive.parse ⟨argsFile, args, none⟩)
  | .word => .ok d

/-- The method has been read from a text: as an item of a block or on its own. -/
inductive ReadFrom (file text : String) (m : Method Location) : Prop where
  | block {b : ImplBlock Location} (h : Source.implBlock ⟨file, text, none⟩ = .ok b)
      (hm : .method m ∈ b.items)
  | item (h : Source.item ⟨file, text, none⟩ = .ok (.method m))

theorem ReadFrom.foundIn (h : m.ReadFrom file text) :
    ∀ a ∈ m.attrs, a.FoundIn ⟨file, text, none⟩ := by
  cases h with
  | block h hm => exact (Source.foundIn_of_implBlock rfl h).2 _ hm
  | item h => exact Source.foundIn_of_item h

theorem ReadFrom.argumentsInTurn (h : m.ReadFrom file text) : ArgumentsInTurn m.attrs := by
  cases h with
  | block h hm => exact Source.inTurn_of_implBlock h _ hm
  | item h => exact Source.inTurn_of_item h

theorem followAlone_map_eq (d : Directive) (a : Attribute σ) :
    followAlone d (a.map fun _ => ()) = (a.markerForm?.map (followForm d)).getD (.ok d) := by
  rw [followAlone, Attribute.markerForm?, Attribute.isThe_map]
  split
  · rcases a with ⟨style, content, text, place⟩
    cases content with
    | none => rfl
    | some c =>
      rcases c with ⟨path, form, place'⟩
      cases form <;> rfl
  · rfl

/-- The directive of a method on its own follows from the forms of its markers. -/
theorem foldlM_followAlone_eq (attrs : List (Attribute σ)) (d : Directive) :
    (attrs.map (Attribute.map fun _ => ())).foldlM followAlone d =
      (attrs.filterMap Attribute.markerForm?).foldlM followForm d := by
  induction attrs generalizing d with
  | nil => rfl
  | cons a attrs ih =>
    rw [List.map_cons, List.foldlM_cons, followAlone_map_eq]
    cases h : a.markerForm? with
    | none =>
      rw [List.filterMap_cons_none h]
      exact ih d
    | some form =>
      rw [List.filterMap_cons_some h, List.foldlM_cons]
      exact congrArg _ (funext ih)

theorem ReadFrom.directive_agree (h : m.ReadFrom file text) :
    Agree Fault.SameCause Eq (m.directive ⟨file, text, none⟩) (m.markers.foldlM followForm {}) := by
  have hagree := directive_agree_followAlone h.foundIn
  rwa [content, Method.map, foldlM_followAlone_eq] at hagree

theorem arguments_of_markerForm {a : Attribute σ} {form : MetaForm Unit}
    (h : a.markerForm? = some form) : a.arguments = form.arguments := by
  rw [Attribute.markerForm?] at h
  split at h
  · obtain ⟨c, hc, rfl⟩ := Option.map_eq_some_iff.mp h
    simp [Attribute.arguments, hc]
  · simp at h

theorem arguments_markers_sublist (m : Method σ) :
    (m.markers.flatMap MetaForm.arguments).Sublist (m.attrs.flatMap Attribute.arguments) := by
  rw [markers]
  induction m.attrs with
  | nil => exact .slnil
  | cons a attrs ih =>
    rw [List.flatMap_cons]
    cases h : a.markerForm? with
    | none =>
      rw [List.filterMap_cons_none h]
      exact ih.trans (List.sublist_append_right _ _)
    | some form =>
      rw [List.filterMap_cons_some h, List.flatMap_cons, arguments_of_markerForm h]
      exact ih.append_left _

/-- Of two markers of a method, the arguments of the second one stand behind those of the first one
and their bracket. -/
theorem ReadFrom.exists_enclosed (h : m.ReadFrom file text) {a b : String}
    {pre post : List (MetaForm Unit)} (hm : m.markers = pre ++ .list a () :: .list b () :: post) :
    ∃ u, Enclosed a.toList u ∧ b.toList <:+: u := by
  obtain ⟨y, hy⟩ := h.argumentsInTurn
  refine (hy.sublist ?_).exists_enclosed (v := a) (w := b)
  refine List.Sublist.trans ?_ m.arguments_markers_sublist
  rw [hm, List.flatMap_append, List.flatMap_cons, List.flatMap_cons]
  exact List.sublist_append_of_sublist_right (.cons_cons a (.cons_cons b (List.nil_sublist _)))

end Method

end Methods

/-! ## Arguments of two markers in one -/

/-- The arguments `b` behind the arguments `a`, on the next line and behind a comma. -/
def joinedArgs (a b : String) : String :=
  a ++ "\n," ++ b

/-- Arguments that have a meta item and end in no comma. They are read from the tokens `ts`, and the
gap `g` is left. -/
structure Continuable (a : String) (ts : List Token) (g : List Char) : Prop where
  items : ∃ ms, MetaList a.toList ms ts g ∧ ms ≠ []
  comma : ∀ t ∈ ts.getLast?, t.kind ≠ .comma

theorem Continuable.parse_both {a b : String} {ts : List Token} {g : List Char}
    (ha : Continuable a ts g) {file : String} {d d' : Directive}
    (hd : Directive.parse ⟨file, a, none⟩ = .ok d) (hd' : Directive.parse ⟨file, b, none⟩ = .ok d')
    {C : Scan → Prop} (hstart : C (.start Expected.metaItem a.toList))
    (hC : ∀ s₁ : Scan, s₁.taken.reverse = ts → s₁.rest = g → s₁.next.kind = .eof →
      Bears s₁ ('\n' :: ',' :: b.toList) C) :
    Directive.parse ⟨file, joinedArgs a b, none⟩ = .ok (d.merge d') := by
  obtain ⟨ms, hms, hne⟩ := ha.items
  exact Directive.parse_append hms hne ha.comma hd hd' hstart hC file

theorem Method.foldlM_followForm_joined {a b : String} {d d' : Directive}
    (hd : Directive.parse ⟨argsFile, a, none⟩ = .ok d)
    (hd' : Directive.parse ⟨argsFile, b, none⟩ = .ok d')
    (hjoined : Directive.parse ⟨argsFile, joinedArgs a b, none⟩ = .ok (d.merge d'))
    (pre post : List (MetaForm Unit)) (d₀ : Directive) :
    (pre ++ .list a () :: .list b () :: post).foldlM followForm d₀ =
      (pre ++ .list (joinedArgs a b) () :: post).foldlM followForm d₀ := by
  rw [List.foldlM_append, List.foldlM_append]
  refine congrArg _ (funext fun d₁ => ?_)
  simp only [List.foldlM_cons, followForm, hd, hd', hjoined, ok_bind]
  exact congrArg (List.foldlM followForm · post) (Directive.merge_assoc d₁ d d')

/-- Arguments of markers may be put one behind the other. If the first ones have a meta item, end in
no comma and leave nothing open that the second ones close, both together ask for what the one and
then the other ask for. So a method with both as the arguments of two markers has the directive of
one with a single marker; there the first ones leave nothing open that matters. And a marker's
arguments fail in no other way than by being malformed. -/
theorem Directive.parse_joined (file a b : String) :
    (∀ (ts : List Token) (g : List Char) (d d' : Directive), Continuable a ts g →
      parse ⟨file, a, none⟩ = .ok d → parse ⟨file, b, none⟩ = .ok d' →
      (Harmless ts g b.toList → parse ⟨file, joinedArgs a b, none⟩ = .ok (d.merge d')) ∧
      ∀ (text text' : String) (m m' : Method Location) (pre post : List (MetaForm Unit)),
        m.ReadFrom file text → m'.ReadFrom file text' →
        m.markers = pre ++ .list a () :: .list b () :: post →
        m'.markers = pre ++ .list (joinedArgs a b) () :: post →
        Agree Fault.SameCause Eq (m.directive ⟨file, text, none⟩)
          (m'.directive ⟨file, text', none⟩)) ∧
    ∀ (s : Source) (f : Fault), parse s = .error f → f.Malformed := by
  refine ⟨fun ts g d d' ha hd hd' => ⟨fun hharmless => ?_,
    fun text text' m m' pre post hm hm' hmarkers hmarkers' => ?_⟩, fun s f hf => ?_⟩
  · refine ha.parse_both hd hd' trivial fun s₁ hts hg _ => bears_of_harmless ?_
    subst hts hg
    exact fun us t vs heq mark hawaited hmark =>
      hharmless us t vs heq mark hawaited (Mark.infix_of_comma hmark)
  · replace hd := parse_renamed hd argsFile
    replace hd' := parse_renamed hd' argsFile
    -- Both lists stand in one text that has been read, so the second one closes
    -- nothing of the first.
    obtain ⟨u, henclosed, hbehind⟩ := hm.exists_enclosed hmarkers
    have hjoined := ha.parse_both hd hd' (henclosed.exists_trailed _) fun s₁ _ _ hend =>
      bears_of_enclosed hend fun mark hmark => (Mark.infix_of_comma hmark).trans hbehind
    have hagree := hm.directive_agree
    rw [hmarkers, Method.foldlM_followForm_joined hd hd' hjoined, ← hmarkers'] at hagree
    exact (hagree.join hm'.directive_agree).mono fun _ _ ⟨_, h, h'⟩ => h.trans h'.symm
  · have honly := parse_onlyMalformed s
    rw [hf] at honly
    cases honly with
    | error h => exact h

/-- Such arguments are told by reading them, and so is what `f` says of them. -/
theorem exists_continuable {a : String} {f : Parsed (List (Meta Extent)) → Bool}
    (h : (Reading.parse (fun n => Grammar.metaItems n n) Expected.metaItem a.toList).toOption.map
          (fun p =>
      !p.value.isEmpty && p.tokens.getLast?.all (·.kind != .comma) && f p) = some true) :
    ∃ ms ts g, Continuable a ts g ∧ f ⟨ms, ts⟩ = true := by
  obtain ⟨p, hp, h⟩ := exists_of_map h
  obtain ⟨s, -, -, htext⟩ := Reading.exists_run hp
  simp only [Bool.and_eq_true, Bool.not_eq_true', List.isEmpty_eq_false_iff] at h
  refine ⟨p.value, p.tokens, s.rest, ⟨⟨p.value, ⟨hp, htext⟩, h.1.1⟩, fun t ht => ?_⟩, h.2⟩
  have hlast := h.1.2
  rw [Option.mem_def.mp ht] at hlast
  simpa using hlast

theorem Method.exists_readFrom (file text : String) (forms : List (MetaForm Unit))
    (h : (Source.implBlock ⟨file, text, none⟩).toOption.map
      (fun b => b.methods.map Method.markers) = some [forms]) :
    ∃ m : Method Location, m.ReadFrom file text ∧ m.markers = forms := by
  obtain ⟨b, hb, h⟩ := exists_of_map h
  obtain ⟨m, hm, hforms⟩ := List.map_eq_singleton_iff.mp h
  refine ⟨m, .block hb ?_, hforms⟩
  have hmem : m ∈ b.methods := by simp [hm]
  rw [ImplBlock.methods_eq, List.mem_filterMap] at hmem
  obtain ⟨i, hi, hmethod⟩ := hmem
  cases i with
  | method m' => rwa [← Option.some.inj hmethod]
  | verbatim => simp [Item.method?] at hmethod

/-- Two markers and one that has the arguments of both; and arguments that are malformed. -/
theorem Directive.parse_joined_markers :
    (∃ d d', parse ⟨"<args>", "transform_bounds(T)", none⟩ = .ok d ∧
      parse ⟨"<args>", "bounds(T: A),", none⟩ = .ok d' ∧
      parse ⟨"<args>", joinedArgs "transform_bounds(T)" "bounds(T: A),", none⟩ = .ok (d.merge d')) ∧
    (∃ (text text' : String) (m m' : Method Location),
      m.ReadFrom "a.rs" text ∧ m'.ReadFrom "a.rs" text' ∧
      m.markers = [.list "transform_bounds(T)" (), .list "bounds(T: A)," ()] ∧
      m'.markers = [.list (joinedArgs "transform_bounds(T)" "bounds(T: A),") ()] ∧
      Agree Fault.SameCause Eq (m.directive ⟨"a.rs", text, none⟩)
        (m'.directive ⟨"a.rs", text', none⟩)) ∧
    ∃ f, parse ⟨"<args>", "bounds(T)", none⟩ = .error f ∧ f.Malformed := by
  obtain ⟨ms, ts, g, ha, hstarts⟩ := exists_continuable (a := "transform_bounds(T)")
    (f := fun p => p.tokens.all fun t => t.text.head?.any fun c => !(['/', 'r', 'b'].contains c))
    (by decide +kernel)
  obtain ⟨d, hd⟩ := exists_of_isOk (x := parse ⟨"<args>", "transform_bounds(T)", none⟩)
    (by decide +kernel)
  obtain ⟨d', hd'⟩ := exists_of_isOk (x := parse ⟨"<args>", "bounds(T: A),", none⟩)
    (by decide +kernel)
  refine ⟨⟨d, d', hd, hd', ?_⟩, ?_, ?_⟩
  · exact ((parse_joined _ _ _).1 ts g d d' ha hd hd').1
      (harmless_of_starts (List.all_eq_true.mp hstarts) _ _)
  · -- One method has the two markers, the other one the marker with the joined arguments.
    obtain ⟨m, hm, hmarkers⟩ := Method.exists_readFrom "a.rs" "impl X\x7b
      #[shadow_method(transform_bounds(T))]#[shadow_method(bounds(T: A),)]fn f();\x7d"
      [.list "transform_bounds(T)" (), .list "bounds(T: A)," ()] (by decide +kernel)
    obtain ⟨m', hm', hmarkers'⟩ := Method.exists_readFrom "a.rs" "impl X\x7b
      #[shadow_method(transform_bounds(T)\n,bounds(T: A),)]fn f();\x7d"
      [.list (joinedArgs "transform_bounds(T)" "bounds(T: A),") ()] (by decide +kernel)
    refine ⟨_, _, m, m', hm, hm', hmarkers, hmarkers', ?_⟩
    exact ((parse_joined _ _ _).1 ts g d d' ha (parse_renamed hd _) (parse_renamed hd' _)).2 _ _
      m m' [] [] hm hm' hmarkers hmarkers'
  · have hbad : (parse ⟨"<args>", "bounds(T)", none⟩).isOk = false := by decide +kernel
    cases hf : parse ⟨"<args>", "bounds(T)", none⟩ with
    | ok d => simp [hf, Except.isOk, Except.toBool] at hbad
    | error f => exact ⟨f, rfl, (parse_joined "<args>" "" "").2 _ f hf⟩

/-- A comment that is opened in the one list and closed in the other. -/
theorem Directive.parse_joined_opened :
    ∃ ts g d d', Continuable "bounds([T; /*]: A)" ts g ∧
      parse ⟨"<args>", "bounds([T; /*]: A)", none⟩ = .ok d ∧
      parse ⟨"<args>", "bounds([U; */]: B)", none⟩ = .ok d' ∧
      ∀ d'', parse ⟨"<args>", joinedArgs "bounds([T; /*]: A)" "bounds([U; */]: B)", none⟩ ≠
        .ok d'' := by
  obtain ⟨ms, ts, g, hcontinuable, -⟩ := exists_continuable (a := "bounds([T; /*]: A)")
    (f := fun _ => true) (by decide +kernel)
  obtain ⟨d, hd⟩ := exists_of_isOk (x := parse ⟨"<args>", "bounds([T; /*]: A)", none⟩)
    (by decide +kernel)
  obtain ⟨d', hd'⟩ := exists_of_isOk (x := parse ⟨"<args>", "bounds([U; */]: B)", none⟩)
    (by decide +kernel)
  have hfails : (parse
      ⟨"<args>", joinedArgs "bounds([T; /*]: A)" "bounds([U; */]: B)", none⟩).isOk =
      false := by
    decide +kernel
  refine ⟨ts, g, d, d', hcontinuable, hd, hd', fun d'' h => ?_⟩
  simp [h, Except.isOk, Except.toBool] at hfails

end ShadowImpl
