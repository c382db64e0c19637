import ShadowImpl.Proofs.Relocation

/-!
# The name of a file

The name under which a text is read labels the places that are reported. A block gives the same
expansion under any two names, or the same diagnostic at the same range. One name is reserved for
the arguments of a marker: under it, the markers of methods are looked up in the arguments.
-/

namespace ShadowImpl

/-! ## Ranges in another file -/

/-- The same range in another file. -/
def Location.under (file : String) (l : Location) : Location :=
  { l with file }

/-- Two ranges that are the same but for the names of their files. -/
def Location.SameRange (l l' : Location) : Prop :=
  l' = l.under l'.file

theorem Location.SameRange.refl (l : Location) : l.SameRange l := rfl

/-- The same fault at the same range. -/
structure Fault.SameSpot (f f' : Fault) : Prop where
  cause : f.cause = f'.cause
  location : Option.Rel Location.SameRange f.location f'.location

theorem Fault.SameSpot.refl (f : Fault) : f.SameSpot f := by
  refine ⟨rfl, ?_⟩
  cases f.location with
  | none => exact .none
  | some l => exact .some (.refl l)

theorem agree_refl {α : Type} (x : Except Fault α) : Agree Fault.SameSpot Eq x x := by
  cases x with
  | ok a => exact .ok rfl
  | error f => exact .error (.refl f)

/-! ## Reading under another name -/

namespace Source

/-- What a source yields under another name is what it yields, moved to that file. -/
theorem parse_under {α β : Type} (s : Source) (file : String) (goal : Goal) (start : Expectation)
    (reading : Nat → Reading α) (place : (Extent → Location) → α → β) {move : β → β}
    (h : ∀ locate a, place (fun x => (locate x).under file) a = move (place locate a)) :
    Agree Fault.SameSpot (fun b b' => b' = move b) (s.parse goal start reading place)
      ({ s with file }.parse goal start reading place) := by
  have hchars : { s with file }.chars = s.chars := rfl
  simp only [parse, parseM_plain, hchars]
  cases Reading.parse reading start s.chars with
  | ok p => exact .ok (h (Extent.location s.file s.chars _) p.value)
  | error scan => exact .error ⟨rfl, .some rfl⟩

theorem implBlock_under (s : Source) (file : String) :
    Agree Fault.SameSpot (fun b b' => b' = b.map (Location.under file)) s.implBlock
      { s with file }.implBlock := by
  refine parse_under s file .implBlock _ _ _ fun locate b => ?_
  rw [ImplBlock.map_map]
  rfl

theorem metas_under (s : Source) (file : String) :
    Agree Fault.SameSpot (fun ms ms' => ms' = ms.map (Meta.map (Location.under file))) s.metas
      { s with file }.metas := by
  refine parse_under s file .directives _ _ _ fun locate ms => ?_
  rw [List.map_map]
  exact congrArg (List.map · ms) (funext fun m => (m.map_map locate (Location.under file)).symm)

/-- A reading that keeps no places yields the same under another name. -/
theorem parse_under_id {α : Type} (s : Source) (file : String) (goal : Goal) (start : Expectation)
    (reading : Nat → Reading α) :
    Agree Fault.SameSpot Eq (s.parse goal start reading fun _ => id)
      ({ s with file }.parse goal start reading fun _ => id) :=
  (parse_under s file goal start reading _ fun _ a => (rfl : a = id a)).mono fun _ _ => Eq.symm

end Source

/-! ## Directives under another name -/

namespace Directive

theorem follow_under (s : Source) (file : String) (d : Directive) (m : Meta Location) :
    Agree Fault.SameSpot Eq (follow s d m)
      (follow { s with file } d (m.map (Location.under file))) := by
  rcases m with ⟨path, form, place⟩
  simp only [follow, followM, Engine.settle_plain, Source.namesM_plain, Source.predicatesM_plain,
    Meta.map]
  cases Keyword.ofPath? path with
  | none => exact .error ⟨rfl, .some rfl⟩
  | some keyword =>
    cases form with
    | word | value => cases keyword <;> exact .error ⟨rfl, .some rfl⟩
    | list args group =>
      simp only [MetaForm.map]
      cases keyword with
      | transformBounds =>
        refine (Source.parse_under_id _ file .names _ _).bind fun names _ h => ?_
        exact .ok (by rw [h])
      | addBounds =>
        refine (Source.parse_under_id _ file .predicates _ _).bind fun predicates _ h => ?_
        exact .ok (by rw [h])

theorem parse_under (s : Source) (file : String) :
    Agree Fault.SameSpot Eq (parse s) (parse { s with file }) := by
  refine (Source.metas_under s file).bind fun ms ms' h => ?_
  subst h
  exact Agree.foldlM_map (fun m _ d => follow_under s file d m) {}

end Directive

/-! ## Items under another name -/

/-- A method marker with arguments, which are looked up in a text. -/
def Attribute.LooksUp (a : Attribute Location) : Prop :=
  a.isThe .method = true ∧ ∃ args group, a.content.map Meta.form = some (.list args group)

/-- Under another name a marker adds the same, if its arguments are looked up in the same text. -/
theorem Method.follow_under (s : Source) (file text : String) (d : Directive)
    (a : Attribute Location) (h : a.LooksUp → text = s.text) :
    Agree Fault.SameSpot Eq (follow s d a)
      (follow ⟨file, text, s.region⟩ d (a.map (Location.under file))) := by
  rw [follow, follow, followM, followM, Attribute.isThe_map]
  split
  · rename_i hmarker
    rcases a with ⟨style, content, text', place⟩
    cases content with
    | none => exact .ok rfl
    | some m =>
      rcases m with ⟨path, form, place'⟩
      cases form with
      | word => exact .ok rfl
      | value => exact .error ⟨rfl, .some rfl⟩
      | list args group =>
        obtain rfl : text = s.text := h ⟨hmarker, args, group, rfl⟩
        refine Agree.bind (R := Eq) ?_ fun d' _ hd => .ok (by rw [hd])
        exact Directive.parse_under { s with region := some (Directive.interior group) } file
  · exact .ok rfl

theorem Method.directive_under (s : Source) (file text : String) (m : Method Location)
    (h : ∀ a ∈ m.attrs, a.LooksUp → text = s.text) :
    Agree Fault.SameSpot Eq (m.directive s)
      ((m.map (Location.under file)).directive ⟨file, text, s.region⟩) :=
  Agree.foldlM_map (fun a ha d => follow_under s file text d a (h a ha)) {}

theorem Item.expand_under (s : Source) (file text : String) (i : Item Location)
    (h : ∀ m, i = .method m → ∀ a ∈ m.attrs, a.LooksUp → text = s.text) :
    Agree Fault.SameSpot (fun j j' => j' = j.map (Location.under file)) (i.expand s)
      ((i.map (Location.under file)).expand ⟨file, text, s.region⟩) := by
  cases i with
  | verbatim v =>
    have hcheck : Agree Fault.SameSpot Eq v.check (v.map (Location.under file)).check := by
      have hany : (v.map (Location.under file)).attrs.any (Attribute.isThe .method) =
          v.attrs.any (Attribute.isThe .method) := by
        rw [VerbatimItem.map, List.any_map]
        exact congrArg (List.any v.attrs) (funext fun a => a.isThe_map _ _)
      rw [VerbatimItem.check, VerbatimItem.check, hany]
      split
      · exact .error ⟨rfl, .some rfl⟩
      · exact .ok rfl
    exact hcheck.bind fun _ _ _ => .ok rfl
  | method m =>
    refine (m.directive_under s file text (h m rfl)).bind fun d _ hd => ?_
    subst hd
    exact .ok (congrArg Item.method (m.map_expand (Location.under file) d))

/-! ## Expansions under another name -/

theorem Ty.shadow_under (ty : Ty) (file : String) (l : Location) :
    Agree Fault.SameSpot Eq (ty.shadow (some l)) (ty.shadow (some (l.under file))) := by
  unfold Ty.shadow
  cases ty.shadow? with
  | some shadow => exact .ok rfl
  | none => exact .error ⟨rfl, .some rfl⟩

/-- A task whose block is moved to another file leads to the same text. -/
theorem Expansion.ofTask_under (args s : Source) (b : ImplBlock Location) (given file text : String)
    (h : ∀ m, Item.method m ∈ b.items → ∀ a ∈ m.attrs, a.LooksUp → text = s.text) :
    Agree Fault.SameSpot (fun e e' => e'.given = e.given ∧ e'.generated = e.generated)
      (ofTask ⟨args, s, b⟩ given)
      (ofTask ⟨args, ⟨file, text, s.region⟩, b.map (Location.under file)⟩ given) := by
  rw [ofTask_eq, ofTask_eq]
  refine (agree_refl _).bind fun d _ hd => ?_
  subst hd
  refine (Ty.shadow_under b.selfTy file b.selfPlace).bind fun selfTy _ hself => ?_
  subst hself
  have hitem : ∀ i ∈ b.items, Agree Fault.SameSpot (fun j j' => j' = j.map (Location.under file))
      (i.expand s) ((i.map (Location.under file)).expand ⟨file, text, s.region⟩) :=
    fun i hi => Item.expand_under s file text i fun m hm => h m (hm ▸ hi)
  refine (Agree.mapM_map hitem).bind fun items _ hitems => ?_
  subst hitems
  -- the generated block is moved with its items, and rendered alike
  have hmoved : Task.generated ⟨args, ⟨file, text, s.region⟩, b.map (Location.under file)⟩ d selfTy
      (items.map (Item.map (Location.under file))) =
      (Task.generated ⟨args, s, b⟩ d selfTy items).map (Location.under file) := rfl
  exact .ok ⟨rfl, by rw [hmoved, ImplBlock.render_map]⟩

/-- Two diagnostics that are the same but for the names of the files. -/
structure Diagnostic.SameSpot (d d' : Diagnostic) : Prop where
  code : d.code = d'.code
  message : d.message = d'.message
  help : d.help = d'.help
  note : d.note = d'.note
  label : d.label = d'.label
  location : Option.Rel Location.SameRange d.location d'.location

theorem Fault.SameSpot.diagnostic {f f' : Fault} (h : f.SameSpot f') :
    f.problem.diagnostic.SameSpot f'.problem.diagnostic := by
  rcases f with ⟨cause, location⟩
  rcases f' with ⟨cause', location'⟩
  obtain rfl : cause = cause' := h.cause
  exact ⟨rfl, rfl, rfl, rfl, rfl, h.location⟩

/-- Two outcomes that are the same but for the names of the files. -/
structure Outcome.SameButFile (o o' : Outcome Expansion) : Prop where
  success : o.result.isOk = o'.result.isOk
  output : o.result.toOption.map Expansion.output = o'.result.toOption.map Expansion.output
  given : o.result.toOption.map Expansion.given = o'.result.toOption.map Expansion.given
  generated : o.result.toOption.map Expansion.generated = o'.result.toOption.map Expansion.generated
  diagnostics : List.Forall₂ Diagnostic.SameSpot o.report.diagnostics o'.report.diagnostics

theorem Outcome.sameButFile_of_agree {o o' : Outcome Expansion}
    (h : Agree Fault.SameSpot (fun e e' => e'.given = e.given ∧ e'.generated = e.generated) o.result
      o'.result) : o.SameButFile o' := by
  rcases o with ⟨sources, result⟩
  rcases o' with ⟨sources', result'⟩
  cases h with
  | ok h =>
    obtain ⟨hgiven, hgenerated⟩ := h
    refine ⟨rfl, ?_, ?_, ?_, .nil⟩
    · simp [Except.toOption, Expansion.output, hgiven, hgenerated]
    · simp [Except.toOption, hgiven]
    · simp [Except.toOption, hgenerated]
  | error h => exact ⟨rfl, rfl, rfl, rfl, .cons h.diagnostic .nil⟩

/-- The name of a file is only a label. A block is expanded in the same way under any two names,
unless one of them is the name reserved for arguments and a method carries a marker whose arguments
are looked up. -/
theorem ofItem_sameButFile (args item file file' : String)
    (h : (file ≠ argsFile ∧ file' ≠ argsFile) ∨ ∀ b, Source.implBlock ⟨file, item, none⟩ = .ok b →
      ∀ m ∈ b.methods, ∀ a ∈ m.attrs, ¬a.LooksUp) :
    (Expansion.ofItem args item file).SameButFile (Expansion.ofItem args item file') := by
  apply Outcome.sameButFile_of_agree
  have hresult := fun f => Request.result_eq (.item args item f)
  simp only [Request.outcome, Request.input, Request.taskOf, ok_bind] at hresult
  rw [hresult, hresult]
  refine (Source.implBlock_under ⟨file, item, none⟩ file').bind_of_ok fun b b' hb hmoved => ?_
  subst hmoved
  refine Expansion.ofTask_under _ ⟨file, _, none⟩ b item file' _ fun m hm a ha hlooks => ?_
  rcases h with ⟨hfile, hfile'⟩ | h
  · rw [if_neg hfile, if_neg hfile']
  · have hmethod : m ∈ b.methods := List.mem_filterMap.mpr ⟨.method m, hm, rfl⟩
    exact absurd hlooks (h b hb m hmethod a ha)

/-- A block with a marked method under two names. -/
theorem ofItem_sameButFile_marked :
    ("<input>" ≠ argsFile ∧ "lib.rs" ≠ argsFile) ∧
      (Expansion.ofItem "" "impl X \x7b #[shadow_method(add_bounds(T: B))] fn f(); \x7d"
        "<input>").SameButFile (Expansion.ofItem ""
          "impl X \x7b #[shadow_method(add_bounds(T: B))] fn f(); \x7d" "lib.rs") := by
  have hnames : "<input>" ≠ argsFile ∧ "lib.rs" ≠ argsFile := by decide
  exact ⟨hnames, ofItem_sameButFile _ _ _ _ (.inl hnames)⟩

/-- Under the name reserved for arguments the marker of the method is looked up in the arguments,
where nothing stands, and its predicate is lost. -/
theorem not_sameButFile_args :
    ¬(Expansion.ofItem "" "impl X \x7b #[shadow_method(add_bounds(T: B))] fn f(); \x7d"
      "<input>").SameButFile (Expansion.ofItem ""
        "impl X \x7b #[shadow_method(add_bounds(T: B))] fn f(); \x7d" argsFile) := by
  intro h
  have hne : (Expansion.ofItem "" "impl X \x7b #[shadow_method(add_bounds(T: B))] fn f(); \x7d"
      "<input>").result.toOption.map Expansion.generated ≠ (Expansion.ofItem ""
        "impl X \x7b #[shadow_method(add_bounds(T: B))] fn f(); \x7d"
        argsFile).result.toOption.map Expansion.generated := by
    decide +kernel
  exact hne h.generated

end ShadowImpl
