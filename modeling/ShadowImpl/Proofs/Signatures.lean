import ShadowImpl.Proofs.PrintedEnds

/-!
# Signatures with and without a body

A method that has a where clause is written alike whether a body follows or not, up to the end of
the last predicate. Without a body the comma behind that predicate is cut off again, together with
all that stand in front of it. This cuts off nothing else, as no predicate ends in a comma.
-/

namespace ShadowImpl

open Reading
open Text (Uncut)

/-! ## What readings come to -/

namespace Reading

variable {α β : Type} {P : α → Prop} {Q : β → Prop} {r : Reading α} {f : α → Reading β}

/-- Every value that a run of the reading comes to satisfies `P`. -/
def ComesTo (P : α → Prop) (r : Reading α) : Prop :=
  ∀ s a s', r.run s = .ok (a, s') → P a

namespace ComesTo

theorem pure {a : α} (h : P a) : (Pure.pure a : Reading α).ComesTo P := by
  intro s b s' hrun
  rw [← (of_run_pure hrun).1]
  exact h

theorem refuse : (Reading.refuse : Reading α).ComesTo P := by
  intro s a s' hrun
  simp [run] at hrun

/-- What a reading comes to is passed on to the next one. -/
theorem bind (hr : r.ComesTo P) (hf : ∀ a, P a → (f a).ComesTo Q) : (r >>= f).ComesTo Q := by
  intro s b s' hrun
  obtain ⟨a, s₁, ha, hb⟩ := run_bind_eq_ok.mp hrun
  exact hf a (hr s a s₁ ha) s₁ b s' hb

/-- The values of the first reading make no difference. -/
theorem after (hf : ∀ a, (f a).ComesTo Q) : (r >>= f).ComesTo Q := by
  intro s b s' hrun
  obtain ⟨a, s₁, -, hb⟩ := run_bind_eq_ok.mp hrun
  exact hf a s₁ b s' hb

/-- A list in brackets comes to what its elements come to. -/
theorem commaList {close : Terminal} {e e' : Expectation} (hr : r.ComesTo P) (n : Nat) :
    (commaList close e e' r n).ComesTo fun as => ∀ a ∈ as, P a := by
  induction n with
  | zero => exact refuse
  | succ n ih =>
    rw [Reading.commaList]
    refine after fun closed => ?_
    split
    · exact pure (by simp)
    · refine hr.bind fun a ha => after fun more => ?_
      split
      · exact ih.bind fun as has => pure (List.forall_mem_cons.mpr ⟨ha, has⟩)
      · exact after fun _ => pure (List.forall_mem_singleton.mpr ha)

/-- So does a list that goes on as long as elements do. -/
theorem openList {starts : Terminal → Bool} {e : Expectation} (hr : r.ComesTo P) (n : Nat) :
    (openList starts e r n).ComesTo fun as => ∀ a ∈ as, P a := by
  induction n with
  | zero => exact refuse
  | succ n ih =>
    rw [Reading.openList]
    refine after fun t => ?_
    split
    · refine hr.bind fun a ha => after fun more => ?_
      split
      · exact ih.bind fun as has => pure (List.forall_mem_cons.mpr ⟨ha, has⟩)
      · exact pure (List.forall_mem_singleton.mpr ha)
    · exact pure (by simp)

end ComesTo

end Reading

/-! ## Parameters and where clauses -/

/-- The bounds of a parameter have no comma at their end. -/
def GenericParam.Uncut (p : GenericParam) : Prop :=
  ∀ q ∈ p.stated, q.Uncut

namespace Grammar

/-- Bounds end in no comma, whatever is projected in them. -/
theorem boundsOrNone_comesTo (n : Nat) :
    (boundsOrNone n).ComesTo fun bs => ∀ projected,
      ∀ b ∈ bs.map (Bound.project projected), Uncut b.print := by
  intro s bs s' hrun projected
  rw [boundsOrNone, run_peek_bind] at hrun
  split at hrun
  · exact ((TypesDerived.all n).bounds hrun).uncut projected
  · obtain ⟨rfl, -⟩ := of_run_pure hrun
    simp

theorem lifetimesOrNone_comesTo (n : Nat) :
    (lifetimesOrNone n).ComesTo fun ls => ∀ l ∈ ls, Uncut l.name := by
  intro s ls s' hrun
  rw [lifetimesOrNone, run_peek_bind] at hrun
  split at hrun
  · have := (plusList_derives .lifetimes lifetime_derives hrun).uncut []
    rwa [Phrase.project_nil] at this
  · obtain ⟨rfl, -⟩ := of_run_pure hrun
    simp

/-- The default of a parameter may end in anything, as a generated list has none. -/
theorem uncut_typeParam {name : String} {bounds : List Bound} {default : Option Ty}
    (h : ∀ projected, ∀ b ∈ bounds.map (Bound.project projected), Uncut b.print) :
    (GenericParam.type name bounds default).Uncut := by
  unfold GenericParam.Uncut
  cases bounds with
  | nil => simp [GenericParam.stated]
  | cons b bounds =>
    rw [GenericParam.stated, List.forall_mem_singleton]
    exact fun projected => uncut_type_predicate (h projected)

/-- A predicate of a lifetime ends as its last bound does, or in its colon. -/
theorem uncut_lifetime_predicate {l : Lifetime} {bounds : List Lifetime}
    (h : ∀ b ∈ bounds, Uncut b.name) : (Predicate.lifetime l bounds).Uncut := by
  intro projected
  apply uncut_printBounded
  apply Text.Uncut.join (by decide)
  rwa [List.forall_mem_map]

theorem uncut_lifetimeParam {l : Lifetime} {bounds : List Lifetime}
    (h : ∀ b ∈ bounds, Uncut b.name) : (GenericParam.lifetime l bounds).Uncut := by
  unfold GenericParam.Uncut
  cases bounds with
  | nil => simp [GenericParam.stated]
  | cons b bounds =>
    rw [GenericParam.stated, List.forall_mem_singleton]
    exact uncut_lifetime_predicate h

theorem typeParam_comesTo (n : Nat) : (typeParam n).ComesTo GenericParam.Uncut := by
  have hdefault (name : String) {bounds : List Bound}
      (h : ∀ projected, ∀ b ∈ bounds.map (Bound.project projected), Uncut b.print) :
      (Reading.optional .eq Expected.type >>= fun c => if c = true then
        ty n >>= fun t => pure (GenericParam.type name bounds (some t))
        else pure (GenericParam.type name bounds none)).ComesTo GenericParam.Uncut := by
    refine .after fun c => ?_
    split
    · exact .after fun t => .pure (uncut_typeParam h)
    · exact .pure (uncut_typeParam h)
  rw [typeParam]
  refine .after fun name => .after fun bounded => ?_
  dsimp only
  split
  · exact (boundsOrNone_comesTo n).bind fun bounds h => hdefault name h
  · exact hdefault name (by simp)

theorem lifetimeParam_comesTo (n : Nat) : (lifetimeParam n).ComesTo GenericParam.Uncut := by
  rw [lifetimeParam]
  refine .after fun name => .after fun bounded => ?_
  split
  · exact (lifetimesOrNone_comesTo n).bind fun bounds h => .pure (uncut_lifetimeParam h)
  · exact .pure (uncut_lifetimeParam (by simp))

theorem constParam_comesTo (n : Nat) : (constParam n).ComesTo GenericParam.Uncut := by
  have huncut (name : String) (ty : Ty) (default : Option GenericArg) :
      (GenericParam.const name ty default).Uncut := by
    simp [GenericParam.Uncut, GenericParam.stated]
  rw [constParam]
  refine .after fun _ => .after fun name => .after fun _ => .after fun ty =>
    .after fun default => ?_
  split
  · refine .after fun t => ?_
    split <;> exact .after fun default => .pure (huncut _ _ _)
  · exact .pure (huncut _ _ _)

/-- No parameter that is read ends in a comma. -/
theorem params_comesTo (n : Nat) : (params n).ComesTo fun ps => ∀ p ∈ ps, p.Uncut := by
  have hparam : (param n).ComesTo GenericParam.Uncut := by
    rw [param]
    refine .after fun t => ?_
    split
    · exact constParam_comesTo n
    · exact lifetimeParam_comesTo n
    · exact typeParam_comesTo n
  rw [params]
  refine .after fun listed => ?_
  split
  · exact hparam.commaList n
  · exact .pure (by simp)

theorem predicates_comesTo (e : Expectation) (n : Nat) :
    (predicates e n).ComesTo fun ps => ∀ p ∈ ps, p.Uncut := by
  have hpredicate : (predicate n).ComesTo Predicate.Uncut :=
    fun s p s' hrun projected => (predicate_derives hrun).uncut projected
  exact hpredicate.openList n

/-- No predicate of a where clause ends in a comma. -/
theorem whereClause_comesTo (n : Nat) :
    (whereClause n).ComesTo fun clause => ∀ p ∈ clause.getD [], p.Uncut := by
  rw [whereClause]
  refine .after fun present => ?_
  split
  · exact (predicates_comesTo _ n).bind fun ps h => .pure h
  · exact .pure (by simp)

end Grammar

/-! ## Items -/

/-- No comma is cut off a predicate of the generics, nor off one that their parameters state. -/
structure Generics.Uncut (g : Generics) : Prop where
  predicates : ∀ p ∈ g.predicates, p.Uncut
  params : ∀ p ∈ g.params, p.Uncut

/-- The same, if the item is a method. -/
def Item.Uncut {σ : Type} (i : Item σ) : Prop :=
  ∀ m, i = .method m → m.generics.Uncut

/-- An item that is kept as it is written has no parameters of its own. -/
theorem uncut_verbatim {σ : Type} (v : VerbatimItem σ) : (Item.verbatim v).Uncut := by
  rintro m ⟨⟩

namespace Grammar

variable (attrs : List (Attribute Extent)) (first n : Nat)

theorem verbatimRest_comesTo (kind : ItemKind) :
    (verbatimRest kind attrs first n).ComesTo Item.Uncut := by
  rw [verbatimRest]
  exact .after fun _ => .after fun _ => .after fun text => .after fun stop => .pure
    (uncut_verbatim _)

theorem macroCall_comesTo : (macroCall attrs n).ComesTo Item.Uncut := by
  rw [macroCall]
  refine .after fun first => .after fun _ => .after fun _ => .after fun _ => ?_
  exact .after fun text => .after fun stop => .pure (uncut_verbatim _)

/-- The generics of a method are what has been read of them, in its list of parameters and in its
where clause. -/
theorem method_comesTo : (method attrs first n).ComesTo Item.Uncut := by
  rw [method]
  -- of all that is read only the parameters and the where clause state predicates
  refine .after fun _ => .after fun _ => .after fun name => .after fun head => ?_
  refine (params_comesTo n).bind fun params hparams => .after fun text => .after fun ret => ?_
  refine (whereClause_comesTo n).bind fun clause hclause => .after fun body =>
    .after fun stop => .pure ?_
  rintro m ⟨⟩
  exact ⟨hclause, hparams⟩

theorem member_comesTo : (member attrs first n).ComesTo Item.Uncut := by
  rw [member]
  refine .after fun t => ?_
  split
  · exact .after fun _ => .after fun _ => verbatimRest_comesTo attrs first n .type
  · rw [constOrMethod]
    refine .after fun _ => .after fun t => ?_
    split
    · exact .after fun _ => verbatimRest_comesTo attrs first n .const
    · exact method_comesTo attrs first n
  · exact method_comesTo attrs first n

/-- Each item, by the way it starts. -/
theorem item_comesTo : (item attrs n).ComesTo Item.Uncut := by
  rw [item]
  refine .after fun t => ?_
  split
  · exact macroCall_comesTo attrs n
  · refine .after fun first => .after fun _ => .after fun t => ?_
    split
    · exact .after fun _ => member_comesTo attrs first n
    · exact member_comesTo attrs first n
  · exact .after fun first => member_comesTo attrs first n

theorem items_comesTo : (items attrs n).ComesTo fun is => ∀ i ∈ is, i.Uncut := by
  induction n generalizing attrs with
  | zero => exact .refuse
  | succ n ih =>
    have hmore : (item attrs n >>= fun i => attributes n >>= fun more => items more n >>= fun is =>
        pure (i :: is)).ComesTo fun is => ∀ i ∈ is, i.Uncut := by
      refine (item_comesTo attrs n).bind fun i hi => .after fun more => ?_
      exact (ih more).bind fun is his => .pure (List.forall_mem_cons.mpr ⟨hi, his⟩)
    rw [items]
    refine .after fun t => ?_
    split
    · exact .after fun _ => .pure (by simp)
    · exact hmore

/-- The methods of a block are items of it. -/
theorem implBlock_comesTo : (implBlock n).ComesTo fun b => ∀ i ∈ b.items, i.Uncut := by
  rw [implBlock]
  refine .after fun first => .after fun attrs => .after fun _ => .after fun _ =>
    .after fun params => ?_
  refine .after fun _ => .after fun header => .after fun _ => .after fun _ => .after fun self => ?_
  refine .after fun clause => .after fun _ => .after fun attrs => ?_
  cases attrs with
  | mk innerAttrs outerAttrs =>
    refine (items_comesTo outerAttrs n).bind fun is his => .after fun text => .after fun stop => ?_
    split <;> exact .pure his

end Grammar

/-! ## Expanding -/

namespace Generics

/-- Expanding keeps commas away from the ends, if the directive brings none. -/
theorem Uncut.expand {g : Generics} (h : g.Uncut) {d : Directive} (hd : ∀ p ∈ d.literals, p.Uncut) :
    (g.expand d).Uncut := by
  have hscope := g.inScope_expand d
  constructor
  · intro p hp
    rw [hscope.predicates, List.mem_append, List.mem_append] at hp
    rcases hp with (hp | hp) | hp
    · obtain ⟨q, hq, rfl⟩ := List.mem_map.mp hp
      apply Predicate.Uncut.project
      rcases List.mem_append.mp hq with hq | hq
      · exact h.predicates q hq
      · obtain ⟨param, hparam, hq⟩ := List.mem_flatMap.mp hq
        exact h.params param hparam q hq
    · obtain ⟨ident, -, rfl⟩ := List.mem_map.mp hp
      exact Predicate.uncut_baseline ident
    · exact hd p hp
  · -- the parameters have lost their bounds
    intro param hparam q hq
    rw [params_expand] at hparam
    obtain ⟨param', -, rfl⟩ := List.mem_map.mp hparam
    cases param' <;> contradiction

end Generics

/-! ## Methods that are read and expanded -/

/-- Predicates that are read from a source end in no comma. -/
theorem Source.uncut_predicates {src : Source} {ps : List Predicate} (h : src.predicates = .ok ps) :
    ∀ p ∈ ps, p.Uncut := by
  obtain ⟨-, s', -, hps, -⟩ := derives_of_predicates h
  intro p hp projected
  exact hps.uncut projected _ (List.mem_map_of_mem hp)

/-- Places make no difference to how a text ends. -/
theorem Item.uncut_of_map {σ τ : Type} {f : σ → τ} {i : Item σ} (h : i.Uncut) :
    (i.map f).Uncut := by
  cases i with
  | method m =>
    rintro _ ⟨⟩
    exact h m rfl
  | verbatim v => exact uncut_verbatim _

theorem Source.uncut_item {src : Source} {i : Item Location} (h : src.item = .ok i) : i.Uncut := by
  obtain ⟨i₀, s', hrun, -, rfl⟩ := exists_run h
  have hitem : (Grammar.attributes (depth src.chars) >>= fun attrs =>
      Grammar.item attrs (depth src.chars)).ComesTo Item.Uncut :=
    .after fun attrs => Grammar.item_comesTo attrs (depth src.chars)
  exact Item.uncut_of_map (hitem _ i₀ s' hrun)

/-- The methods of a block that is read from a source have generics that end in no comma. -/
theorem Source.uncut_implBlock {src : Source} {b : ImplBlock Location} (h : src.implBlock = .ok b) :
    ∀ i ∈ b.items, i.Uncut := by
  obtain ⟨b₀, s', hrun, -, rfl⟩ := exists_run h
  have hitems := Grammar.implBlock_comesTo (depth src.chars) _ b₀ s' hrun
  intro i hi
  obtain ⟨i₀, hi₀, rfl⟩ := List.mem_map.mp hi
  exact Item.uncut_of_map (hitems i₀ hi₀)

/-- A method that is read by itself is read as an item as well. -/
theorem Source.item_of_method {src : Source} {m : Method Location} (h : src.method = .ok m) :
    src.item = .ok (.method m) := by
  obtain ⟨i, hi, h⟩ := bind_eq_ok_iff.mp h
  cases i with
  | method m' =>
    obtain rfl := Except.ok.inj h
    exact hi
  | verbatim v => contradiction

/-- The literal predicates of the directive have been read. -/
def Directive.Read (d : Directive) : Prop :=
  ∀ p ∈ d.literals, ∃ src ps, Source.predicates src = .ok ps ∧ p ∈ ps

/-- A method that has been read, alone or in a block, and expanded any number of times. -/
inductive Method.Obtained : Method Location → Prop where
  | item {src : Source} {m : Method Location} (h : src.item = .ok (.method m)) : Obtained m
  | block {src : Source} {b : ImplBlock Location} {m : Method Location} (h : src.implBlock = .ok b)
      (hm : m ∈ b.methods) : Obtained m
  | expand {m : Method Location} {d : Directive} (h : Obtained m) (hd : d.Read) :
      Obtained (m.expand d)

/-- However a method is obtained, none of its parameters and predicates ends in a comma. -/
theorem Method.Obtained.uncut {m : Method Location} (h : m.Obtained) : m.generics.Uncut := by
  induction h with
  | item h => exact Source.uncut_item h _ rfl
  | block h hm =>
    obtain ⟨i, hi, him⟩ := List.mem_filterMap.mp hm
    cases i with
    | method m' =>
      obtain rfl := Option.some.inj him
      exact Source.uncut_implBlock h _ hi _ rfl
    | verbatim v => contradiction
  | expand h hd ih =>
    apply ih.expand
    intro p hp
    obtain ⟨src, ps, hps, hmem⟩ := hd p hp
    exact Source.uncut_predicates hps p hmem

/-! ## Methods of an expansion -/

namespace Directive

variable {src : Source} {d d' : Directive}

/-- More literal predicates that have been read somewhere. -/
theorem Read.append {literals : List Predicate} (hd : d.Read)
    (h : ∀ p ∈ literals, ∃ src ps, Source.predicates src = .ok ps ∧ p ∈ ps) {names : List String} :
    (⟨names, d.literals ++ literals⟩ : Directive).Read := by
  intro p hp
  rcases List.mem_append.mp hp with hp | hp
  · exact hd p hp
  · exact h p hp

/-- A directive that is collected step by step is read if each step adds what is. -/
theorem Read.foldlM {α : Type} {f : Directive → α → Except Fault Directive}
    (hf : ∀ d a d', Read d → f d a = .ok d' → Read d') {as : List α} (hd : d.Read)
    (h : as.foldlM f d = .ok d') : d'.Read := by
  induction as generalizing d with
  | nil =>
    obtain rfl := Except.ok.inj h
    exact hd
  | cons a as ih =>
    rw [List.foldlM_cons] at h
    obtain ⟨d₁, hd₁, h⟩ := bind_eq_ok_iff.mp h
    exact ih (hf d a d₁ hd hd₁) h

theorem read_empty : ({} : Directive).Read := by
  intro p hp
  contradiction

/-- What a marker's arguments spell out has been read. -/
theorem read_of_parse (h : parse src = .ok d) : d.Read := by
  obtain ⟨ms, -, h⟩ := bind_eq_ok_iff.mp h
  refine read_empty.foldlM (fun d m d' hd hfollow => ?_) h
  obtain ⟨args, group, -, ⟨ns, -, rfl⟩ | ⟨ps, hps, rfl⟩⟩ := follow_cases hfollow
  · unfold Read
    rwa [(projected_foldl_project ns d).2]
  · exact hd.append fun p hp => ⟨_, ps, hps, hp⟩

/-- An attribute adds what its arguments come to, and these have been read. -/
theorem read_of_follow {a : Attribute Location} (hd : d.Read) (h : Method.follow src d a = .ok d') :
    d'.Read := by
  unfold Method.follow Method.followM at h
  split at h
  · split at h
    · contradiction
    · obtain ⟨other, hother, h⟩ := bind_eq_ok_iff.mp h
      obtain rfl := Except.ok.inj h
      simp only [merge, (projected_foldl_project other.projected d).2]
      exact hd.append (read_of_parse hother)
    · obtain rfl := Except.ok.inj h
      exact hd
  · obtain rfl := Except.ok.inj h
    exact hd

/-- What the markers of a method ask for has been read. -/
theorem read_of_method {m : Method Location} (h : m.directive src = .ok d) : d.Read :=
  read_empty.foldlM (fun _ _ _ => read_of_follow) h

end Directive

theorem exists_of_forall₂ {α β : Type} {R : α → β → Prop} {as : List α} {bs : List β}
    (h : List.Forall₂ R as bs) {b : β} (hb : b ∈ bs) : ∃ a ∈ as, R a b := by
  induction h with
  | nil => contradiction
  | cons hab _ ih =>
    rcases List.mem_cons.mp hb with rfl | hb
    · exact ⟨_, List.mem_cons_self, hab⟩
    · obtain ⟨a, ha, hR⟩ := ih hb
      exact ⟨a, List.mem_cons_of_mem _ ha, hR⟩

/-- Every method that an expansion generates has been read and expanded. -/
theorem Request.obtained_methods {r : Request} {e : Expansion} (h : r.outcome.result = .ok e) :
    ∀ m ∈ e.block.methods, m.Obtained := by
  intro m hm
  obtain ⟨b, t, d, hb, ht, hmade⟩ := exists_made h
  obtain ⟨attrs, hblock⟩ := taskOf_block ht
  obtain ⟨j, hj, hjm⟩ := List.mem_filterMap.mp hm
  obtain ⟨i, hi, hexpand⟩ := exists_of_forall₂ hmade.items hj
  rcases Item.expand_eq_ok hexpand with ⟨v, rfl, rfl, -⟩ | ⟨m₀, d₀, rfl, hd₀, rfl⟩
  · contradiction
  · obtain rfl := Option.some.inj hjm
    apply Method.Obtained.expand _ (Directive.read_of_method hd₀)
    apply Method.Obtained.block hb
    rw [hblock] at hi
    exact List.mem_filterMap.mpr ⟨_, hi, rfl⟩

/-! ## Signatures -/

/-- The last of the texts that are joined stands at the end. -/
theorem Text.join_concat (sep : String) (parts : List String) :
    ∃ front, ∀ last, join sep (parts ++ [last]) = front ++ last := by
  induction parts with
  | nil => exact ⟨"", fun last => by simp [join]⟩
  | cons p parts ih =>
    obtain ⟨front, hfront⟩ := ih
    refine ⟨p ++ sep ++ front, fun last => ?_⟩
    rw [String.append_assoc, ← hfront]
    cases parts <;> rfl

/-- The comma and the line feed behind a text are cut off, and nothing else. -/
theorem withoutLastComma_append {s : String} (h : Uncut s) : withoutLastComma (s ++ ",\n") = s := by
  have hchars : (s ++ ",\n").toList.reverse = '\n' :: ',' :: s.toList.reverse := by
    rw [String.toList_append, List.reverse_append]
    rfl
  have hrest : s.toList.reverse.dropWhile (· = ',') = s.toList.reverse := by
    have hhead : s.toList.reverse.head? ≠ some ',' := by
      rw [List.head?_reverse]
      exact h
    cases hs : s.toList.reverse with
    | nil => rfl
    | cons c r =>
      rw [hs] at hhead
      exact List.dropWhile_cons_of_neg (by simpa using hhead)
  simp only [withoutLastComma, hchars]
  rw [List.dropWhile_cons_of_pos rfl, List.dropWhile_cons_of_neg (by decide),
    List.dropWhile_cons_of_pos rfl, hrest, List.reverse_reverse, String.ofList_toList]

/-- A where clause in print, up to its last predicate. -/
theorem printClause_concat (ps : List Predicate) (p : Predicate) (indent : String) :
    ∃ front, Uncut front ∧ printClause (some (ps ++ [p])) indent = front ++ p.print ++ ",\n" := by
  obtain ⟨front, hfront⟩ := Text.join_concat "\n"
    (ps.map fun q => indent ++ indentation ++ q.print ++ ",")
  refine ⟨"\n" ++ indent ++ "where\n" ++ front ++ indent ++ indentation, .behind _ (by decide), ?_⟩
  have hjoin : printClause (some (ps ++ [p])) indent = "\n" ++ indent ++ "where\n" ++
      Text.join "\n" ((ps ++ [p]).map fun q => indent ++ indentation ++ q.print ++ ",") ++
        "\n" := by
    cases ps <;> rfl
  have hend : ",\n" = "," ++ "\n" := rfl
  rw [hjoin, List.map_append, List.map_singleton, hfront, hend]
  simp only [String.append_assoc]

namespace Method

/-- The body of a method has no part in what is written in front of its where clause. -/
theorem render_eq {σ : Type} (m : Method σ) (indent : String) :
    ∃ front, ∀ body, Method.render { m with body } indent =
      front ++ Method.ending { m with body } indent := by
  obtain ⟨attrs, hattrs⟩ := Text.join_concat "\n" (Attribute.renderEach indent m.attrs)
  refine ⟨attrs ++ m.signature indent, fun body => ?_⟩
  rw [String.append_assoc]
  exact hattrs _

/-- A method that has been read and expanded and that has a where clause is written alike whether a
body follows or not, up to the end of the last predicate. Nothing but the comma and the line feed
behind that predicate is cut off. -/
theorem render_alike {m : Method Location} (h : m.Obtained) {ps : List Predicate} {p : Predicate}
    (hclause : m.generics.clause = some (ps ++ [p])) (indent : String) :
    ∃ signature front, signature = front ++ p.print ∧
      Method.render { m with body := ";" } indent = signature ++ ";" ∧
      ∀ body, body ≠ ";" →
        Method.render { m with body } indent = signature ++ ",\n" ++ indent ++ body := by
  have hp : Uncut p.print := by
    apply (h.uncut.predicates p _).print
    rw [Generics.predicates, hclause]
    simp
  obtain ⟨head, hhead⟩ := m.render_eq indent
  obtain ⟨front, hfront, hprint⟩ := printClause_concat ps p indent
  refine ⟨_, head ++ front, rfl, ?_, fun body hbody => ?_⟩
  · rw [hhead, ending, if_pos rfl, hclause, hprint, withoutLastComma_append (hfront.append hp)]
    simp only [String.append_assoc]
  · have hne : front ++ p.print ++ ",\n" ≠ "" := by simp
    rw [hhead, ending, if_neg hbody, hclause, hprint, if_neg hne]
    simp only [String.append_assoc]

/-- A method that gets its last predicate from a marker, where this ends in the comma of a tuple. -/
theorem render_alike_tuple : ∃ src m d ps p,
    src = (⟨"a.rs", "#[shadow_method(bounds(T: Fn() -> (T,),))] fn f() where U:,;",
      none⟩ : Source) ∧ src.item = .ok (.method m) ∧ m.directive src = .ok d ∧
      (m.expand d).generics.clause = some (ps ++ [p]) ∧ p.print = "T: Fn() -> (T,)" ∧
      ∃ signature front, signature = front ++ p.print ∧
        Method.render { m.expand d with body := ";" } "  " = signature ++ ";" ∧
        ∀ body, body ≠ ";" →
          Method.render { m.expand d with body } "  " = signature ++ ",\n" ++ "  " ++ body := by
  have hprinted : (do
      let m ← Source.method
        ⟨"a.rs", "#[shadow_method(bounds(T: Fn() -> (T,),))] fn f() where U:,;", none⟩
      let d ← m.directive
        ⟨"a.rs", "#[shadow_method(bounds(T: Fn() -> (T,),))] fn f() where U:,;", none⟩
      return (m.expand d).generics.predicates.map Predicate.print) =
      (.ok ["U:", "T: Fn() -> (T,)"] : Except Fault _) := by
    decide +kernel
  obtain ⟨m, hm, hprinted⟩ := bind_eq_ok_iff.mp hprinted
  obtain ⟨d, hd, hprinted⟩ := bind_eq_ok_iff.mp hprinted
  have hsplit : (m.expand d).generics.predicates.map Predicate.print = ["U:"] ++
      ["T: Fn() -> (T,)"] :=
    Except.ok.inj hprinted
  obtain ⟨ps, ps', hpredicates, -, hps'⟩ := List.map_eq_append_iff.mp hsplit
  obtain ⟨p, rfl, hp⟩ := List.map_eq_singleton_iff.mp hps'
  have hitem : Source.item _ = .ok (.method m) := Source.item_of_method hm
  have hclause : (m.expand d).generics.clause = some (ps ++ [p]) := by
    unfold Generics.predicates at hpredicates
    cases hc : (m.expand d).generics.clause with
    | none =>
      rw [hc] at hpredicates
      simp at hpredicates
    | some qs =>
      rw [hc] at hpredicates
      rw [← hpredicates]
      rfl
  have hobtained : (m.expand d).Obtained := (Obtained.item hitem).expand
    (Directive.read_of_method hd)
  exact ⟨_, m, d, ps, p, rfl, hitem, hd, hclause, hp, render_alike hobtained hclause "  "⟩

end Method

end ShadowImpl
