import ShadowImpl.Proofs.Isolation
import ShadowImpl.Proofs.Unmarked

/-!
# The two ways to ask for an expansion

A block that carries its marker is expanded as the block without the marker is under the marker's
arguments. One way reads the arguments and the methods' markers in the whole text, the other reads
each in a text of its own; both do what is done for a block that stands nowhere.
-/

namespace ShadowImpl

variable {σ τ : Type}

/-! ## Blocks that stand nowhere -/

@[simp] theorem Attribute.unplaced_map (f : σ → τ) (a : Attribute σ) :
    (a.map f).unplaced = a.unplaced :=
  a.map_map f _

theorem Attribute.map_unplaced_map (f : σ → τ) (as : List (Attribute σ)) :
    (as.map (Attribute.map f)).map unplaced = as.map unplaced :=
  map_map_list f _ as

theorem ImplBlock.unplaced_map (f : σ → τ) (b : ImplBlock σ) : (b.map f).unplaced = b.unplaced := by
  rw [unplaced, b.map_map]
  rfl

theorem ImplBlock.render_unplaced (b : ImplBlock σ) : b.unplaced.render = b.render :=
  b.render_map _

/-- What is made of an item that stands nowhere. -/
def Item.expandAlone : Item Unit → Except Fault (Item Unit)
  | .method m => do return .method (← m.expandAlone)
  | .verbatim v =>
    if v.attrs.any (Attribute.isThe .method) then .error ⟨.markedItem v.kind, none⟩
    else .ok (.verbatim v)

/-- The text that is generated for a block that stands nowhere, under a directive that may be
missing. -/
def ImplBlock.generateAlone (b : ImplBlock Unit) (d : Except Fault Directive) :
    Except Fault String := do
  let d ← d
  let selfTy ← b.selfTy.shadow none
  let items ← b.items.mapM Item.expandAlone
  return { b with selfTy, items, generics := b.generics.expand d }.render

/-! ## Blocks in place and on their own -/

theorem Ty.shadow_agree (ty : Ty) (l l' : Option Location) :
    Agree Fault.SameCause Eq (ty.shadow l) (ty.shadow l') := by
  unfold Ty.shadow
  cases ty.shadow? with
  | some shadow => exact .ok rfl
  | none => exact .error rfl

theorem Item.expand_agree_expandAlone {s : Source} {i : Item Location}
    (h : ∀ a ∈ i.attrs, a.FoundIn s) :
    Agree Fault.SameCause (fun j j' => j' = j.unplaced) (i.expand s) i.unplaced.expandAlone := by
  cases i with
  | method m =>
    show Agree _ _ (m.directive s >>= fun d => .ok (Item.method (m.expand d)))
      ((m.content.attrs.foldlM Method.followAlone {} >>= fun d => .ok (m.content.expand d)) >>=
        fun m' => .ok (Item.method m'))
    rw [bind_assoc]
    refine (Method.directive_agree_followAlone h).bind fun d _ hd => ?_
    subst hd
    exact .ok (congrArg Item.method (m.map_expand _ d))
  | verbatim v =>
    have hany : (v.attrs.map Attribute.unplaced).any (Attribute.isThe .method) =
        v.attrs.any (Attribute.isThe .method) := by
      rw [List.any_map]
      exact congrArg (List.any v.attrs) (funext fun a => a.isThe_map _ _)
    show Agree _ _ (v.check >>= fun _ => .ok (Item.verbatim v))
      (if (v.attrs.map Attribute.unplaced).any (Attribute.isThe .method) then _ else _)
    rw [hany, VerbatimItem.check]
    split
    · exact .error rfl
    · exact .ok rfl

/-- A task leads to what is generated for its block alone, under the same directive. -/
theorem Expansion.ofTask_agree_generateAlone {t : Task} {d : Except Fault Directive}
    (hd : Agree Fault.SameCause Eq (Directive.parse t.args) d)
    (hfound : ∀ i ∈ t.block.items, ∀ a ∈ i.attrs, a.FoundIn t.source) (given : String) :
    Agree Fault.SameCause (fun e generated => e.given = given ∧ e.generated = generated)
      (ofTask t given) (t.block.unplaced.generateAlone d) := by
  rw [ofTask_eq, ImplBlock.generateAlone]
  refine hd.bind fun d _ hd => ?_
  subst hd
  refine (Ty.shadow_agree t.block.selfTy _ none).bind fun selfTy _ hself => ?_
  subst hself
  have hitems : Agree Fault.SameCause (fun is is' => is' = is.map Item.unplaced)
      (t.block.items.mapM (Item.expand t.source))
      ((t.block.items.map Item.unplaced).mapM Item.expandAlone) :=
    Agree.mapM_map fun i hi => Item.expand_agree_expandAlone (hfound i hi)
  refine hitems.bind fun items _ hitems => ?_
  subst hitems
  refine .ok ⟨rfl, ?_⟩
  rw [← ImplBlock.render_unplaced]
  rfl

/-- Two runs that agree with a third one agree. -/
theorem Agree.join {α β γ : Type} {R : α → γ → Prop} {S : β → γ → Prop} {x : Except Fault α}
    {y : Except Fault β} {z : Except Fault γ} (h : Agree Fault.SameCause R x z)
    (h' : Agree Fault.SameCause S y z) :
    Agree Fault.SameCause (fun a b => ∃ c, R a c ∧ S b c) x y := by
  cases h with
  | ok ha =>
    cases h' with
    | ok hb => exact .ok ⟨_, ha, hb⟩
  | error hf =>
    cases h' with
    | error hf' => exact .error (Eq.trans hf (Eq.symm hf'))

/-! ## A block without its marker -/

/-- The arguments of an attribute; none for one that has no list. -/
def Attribute.argsText (a : Attribute σ) : String :=
  match a.content.map Meta.form with
  | some (.list args _) => args
  | _ => ""

/-- What is left of a text when the attribute at a place is removed. -/
def Source.without (s : Source) (l : Location) : Source :=
  { s with text := String.ofList (Text.removeBetween s.text.toList l.start l.stop) }

theorem Source.implBlock_without {s : Source} (hregion : s.region = none) {b : ImplBlock Location}
    (h : s.implBlock = .ok b) {as bs : List (Attribute Location)} {a : Attribute Location}
    (hattrs : b.attrs = as ++ a :: bs) :
    ∃ b', (s.without a.place).implBlock = .ok b' ∧
      b'.unplaced = { b.unplaced with attrs := (as ++ bs).map Attribute.unplaced } := by
  have hregion' : (s.without a.place).region = none := hregion
  have htext' : (s.without a.place).text.toList =
      Text.removeBetween s.text.toList a.place.start a.place.stop := String.toList_ofList
  obtain ⟨b₀, s₀, hrun, hb⟩ := (implBlock_eq_ok hregion).mp h
  rw [hb] at hattrs
  obtain ⟨as₀, rest, hsplit, rfl, hrest⟩ := List.map_eq_append_iff.mp hattrs
  obtain ⟨a₀, bs₀, rfl, ha, rfl⟩ := List.map_eq_cons_iff.mp hrest
  have hplace := congrArg Attribute.place ha
  obtain ⟨b', s', hrun', hb'⟩ := implBlock_removeBetween hrun hsplit hplace.symm
  rw [← htext'] at hrun'
  refine ⟨_, (implBlock_eq_ok hregion').mpr ⟨b', s', hrun', rfl⟩, ?_⟩
  rw [hb, ImplBlock.unplaced_map, ImplBlock.unplaced_map, hb', ← List.map_append,
    Attribute.map_unplaced_map]

/-! ## The two ways agree -/

/-- Two outcomes that give the same texts, or the same diagnostic wherever it points. -/
structure Outcome.SameTexts (o o' : Outcome Expansion) : Prop where
  success : o.result.isOk = o'.result.isOk
  given : o.result.toOption.map Expansion.given = o'.result.toOption.map Expansion.given
  generated : o.result.toOption.map Expansion.generated = o'.result.toOption.map Expansion.generated
  output : o.result.toOption.map Expansion.output = o'.result.toOption.map Expansion.output
  diagnostics : List.Forall₂ (fun d d' : Diagnostic => d.code = d'.code ∧ d.message = d'.message)
    o.report.diagnostics o'.report.diagnostics

theorem Outcome.sameTexts_of_agree {o o' : Outcome Expansion}
    (h : Agree Fault.SameCause
      (fun e e' => e.given = e'.given ∧ e.generated = e'.generated) o.result
      o'.result) : o.SameTexts o' := by
  rcases o with ⟨sources, result⟩
  rcases o' with ⟨sources', result'⟩
  cases h with
  | ok h =>
    obtain ⟨hgiven, hgenerated⟩ := h
    refine ⟨rfl, ?_, ?_, ?_, .nil⟩
    · simp [Except.toOption, hgiven]
    · simp [Except.toOption, hgenerated]
    · simp [Except.toOption, Expansion.output, hgiven, hgenerated]
  | @error f f' h =>
    rcases f with ⟨cause, l⟩
    rcases f' with ⟨cause', l'⟩
    obtain rfl : cause = cause' := h
    exact ⟨rfl, rfl, rfl, rfl, .cons ⟨rfl, rfl⟩ .nil⟩

theorem Agree.refl {α : Type} (x : Except Fault α) : Agree Fault.SameCause Eq x x := by
  cases x with
  | ok a => exact .ok rfl
  | error f => exact .error rfl

/-- The arguments of a marker give the same directive in place and on their own. -/
theorem markerArgs_agree {s : Source} {marker : Attribute Location} (hfound : marker.FoundIn s)
    (hvalue : marker.content.map Meta.form ≠ some .value) :
    ∃ args, Expansion.markerArgs s marker = .ok args ∧
      Agree Fault.SameCause Eq (Directive.parse args)
        (Directive.parse ⟨argsFile, marker.argsText, none⟩) := by
  rw [Expansion.markerArgs, Attribute.argsText]
  cases hform : marker.content.map Meta.form with
  | none => exact ⟨_, rfl, .refl _⟩
  | some form =>
    cases form with
    | value => exact absurd hform hvalue
    | word => exact ⟨_, rfl, .refl _⟩
    | list args group =>
      have hplace := hfound args group hform
      have halone : Source.Reads ⟨argsFile, args, none⟩ args.toList :=
        ⟨⟨[], [], Source.holds_whole argsFile args⟩, hplace.2⟩
      exact ⟨_, rfl, Directive.parse_agree hplace halone⟩

/-- The text that is repeated in front is the one without the marker. -/
theorem Source.removeAttribute_place {s : Source} (hregion : s.region = none)
    {b : ImplBlock Location} (h : s.implBlock = .ok b) {a : Attribute Location} (ha : a ∈ b.attrs) :
    Text.removeAttribute s.text.toList a.place.start.toNat a.place.stop.toNat =
      Text.removeBetween s.text.toList a.place.start a.place.stop := by
  obtain ⟨b₀, s₀, -, rfl⟩ := (implBlock_eq_ok hregion).mp h
  obtain ⟨a₀, -, rfl⟩ := List.mem_map.mp ha
  exact (Text.removeBetween_eq _ (Int.natCast_nonneg _) (Int.natCast_nonneg _)).symm

/-- The two ways to ask agree: a block that carries its marker gives what the text without the
marker gives under the arguments of the marker. -/
theorem ofSource_sameTexts_ofItem (text file : String) (b : ImplBlock Location)
    (marker : Attribute Location) (hfile : file ≠ argsFile)
    (hb : Source.implBlock ⟨file, text, none⟩ = .ok b)
    (hmarker : b.attrs.filter (Attribute.isThe .block) = [marker])
    (hvalue : marker.content.map Meta.form ≠ some .value) :
    (Expansion.ofSource text file).SameTexts (Expansion.ofItem marker.argsText
      (String.ofList (Text.removeBetween text.toList marker.place.start marker.place.stop))
        file) := by
  obtain ⟨as, bs, hattrs, hrest⟩ := exists_of_filter_eq_singleton hmarker
  have hmem : marker ∈ b.attrs := by simp [hattrs]
  obtain ⟨hfound, hitems⟩ := Source.foundIn_of_implBlock rfl hb
  obtain ⟨args, hargs, hdirective⟩ := markerArgs_agree (hfound marker hmem) hvalue
  obtain ⟨b', hb', hunplaced⟩ := Source.implBlock_without rfl hb hattrs
  obtain ⟨-, hitems'⟩ := Source.foundIn_of_implBlock rfl hb'
  have htake : Expansion.takeMarker b = .ok ({ b with attrs := as ++ bs }, marker) := by
    simp only [Expansion.takeMarker, hmarker, hrest]
  have hgiven := Source.removeAttribute_place rfl hb hmem
  simp only [Source.without] at hb' hitems' hgiven
  generalize Text.removeBetween text.toList marker.place.start marker.place.stop = left at *
  -- Each way comes down to a task, and both tasks to the block without places.
  have hsource := Request.result_eq (.source text file)
  simp only [Request.outcome, Request.input, Request.taskOf, hb, ok_bind, htake, hargs, hgiven]
    at hsource
  have hitem := Request.result_eq (.item marker.argsText (String.ofList left) file)
  simp only [Request.outcome, Request.input, Request.taskOf, hb', ok_bind, if_neg hfile] at hitem
  have hplaced := Expansion.ofTask_agree_generateAlone (t := ⟨args, ⟨file, text, none⟩,
    { b with attrs := as ++ bs }⟩) hdirective hitems (String.ofList left)
  have halone := Expansion.ofTask_agree_generateAlone (t := ⟨⟨argsFile, marker.argsText, none⟩,
    ⟨file, String.ofList left, none⟩, b'⟩) (.refl _) hitems' (String.ofList left)
  rw [hunplaced] at halone
  apply Outcome.sameTexts_of_agree
  rw [hsource, hitem]
  refine (hplaced.join halone).mono fun e e' h => ?_
  obtain ⟨generated, ⟨hgiven, hgenerated⟩, hgiven', hgenerated'⟩ := h
  exact ⟨hgiven.trans hgiven'.symm, hgenerated.trans hgenerated'.symm⟩

/-- A marker can be told by its arguments and by the text that is left without it. -/
theorem exists_marker (text file args left : String)
    (h : ((Source.implBlock ⟨file, text, none⟩).toOption.map fun b =>
      (b.attrs.filter (Attribute.isThe .block)).map fun a =>
        (decide (a.content.map Meta.form = some .value), a.argsText,
          String.ofList (Text.removeBetween text.toList a.place.start a.place.stop))) =
      some [(false, args, left)]) :
    ∃ b marker, Source.implBlock ⟨file, text, none⟩ = .ok b ∧
      b.attrs.filter (Attribute.isThe .block) = [marker] ∧
      marker.content.map Meta.form ≠ some .value ∧ marker.argsText = args ∧
      String.ofList (Text.removeBetween text.toList marker.place.start marker.place.stop) =
        left := by
  cases hb : Source.implBlock ⟨file, text, none⟩ with
  | error f => simp [hb, Except.toOption] at h
  | ok b =>
    simp only [hb, Except.toOption, Option.map_some, Option.some.injEq] at h
    obtain ⟨marker, hmarker, hfields⟩ := List.map_eq_singleton_iff.mp h
    simp only [Prod.mk.injEq, decide_eq_false_iff_not] at hfields
    exact ⟨b, marker, rfl, hmarker, hfields⟩

/-- A block with its marker on a line of its own, and without it. -/
theorem ofSource_sameTexts_ofItem_marked :
    (Expansion.ofSource "/// doc\n#[shadow_impl(add_bounds(T: B))]\nimpl X \x7b \x7d"
      "<input>").SameTexts
    (Expansion.ofItem "add_bounds(T: B)" "/// doc\nimpl X \x7b \x7d" "<input>") := by
  obtain ⟨b, marker, hb, hmarker, hvalue, hargs, hleft⟩ := exists_marker
    "/// doc\n#[shadow_impl(add_bounds(T: B))]\nimpl X \x7b \x7d" "<input>" "add_bounds(T: B)"
    "/// doc\nimpl X \x7b \x7d" (by decide +kernel)
  have h := ofSource_sameTexts_ofItem _ "<input>" b marker (by decide) hb hmarker hvalue
  rwa [hargs, hleft] at h

end ShadowImpl
