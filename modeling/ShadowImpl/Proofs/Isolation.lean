import ShadowImpl.Proofs.Directives
import ShadowImpl.Proofs.Relocation
import ShadowImpl.Proofs.Scopes

/-!
# Scopes do not leak

A block and each of its methods are scopes of their own. What a block's marker asks for shows in the
where clause of the block and nowhere else; and what is made of a method follows from the method and
the texts of its own markers, wherever it stands and whatever stands around it.
-/

namespace ShadowImpl

variable {σ : Type}

/-! ## A method on its own -/

/-- A method without the places at which it was found. -/
def Method.content (m : Method σ) : Method Unit :=
  m.map fun _ => ()

namespace Method

/-- Follows one attribute that stands nowhere: the arguments of a marker are a text of their own. -/
def followAlone (d : Directive) (a : Attribute Unit) : Except Fault Directive :=
  if a.isThe .method then
    match a.content.map Meta.form with
    | some .value => .error ⟨.markerWithValue .method, none⟩
    | some (.list args _) => do return d.merge (← Directive.parse ⟨argsFile, args, none⟩)
    | _ => .ok d
  else .ok d

/-- What is made of a method that stands nowhere. -/
def expandAlone (m : Method Unit) : Except Fault (Method Unit) := do
  return m.expand (← m.attrs.foldlM followAlone {})

end Method

/-! ## Lists of arguments in a block -/

/-- The arguments of the attribute, if it has any, are found in `s` at the place that it keeps. -/
def Attribute.FoundIn (s : Source) (a : Attribute Location) : Prop :=
  ∀ args group, a.content.map Meta.form = some (.list args group) →
    Source.Reads { s with region := some (Directive.interior group) } args.toList

theorem Attribute.foundIn_of_sound {s : Source} {rest : List Char} {ts : List Token}
    (htext : s.text.toList = Token.spelled ts ++ rest) {a : Attribute Extent} (ha : a.Sound ts)
    (text : List Char) :
    (a.map (Extent.location s.file text (Token.spans 0 ts).toArray)).FoundIn s := by
  intro args group hform
  rcases a with ⟨style, content, source, place⟩
  cases content with
  | none => simp [Attribute.map] at hform
  | some m =>
    rcases m with ⟨path, form, place'⟩
    cases form with
    | word => simp [Attribute.map, Meta.map, MetaForm.map] at hform
    | value => simp [Attribute.map, Meta.map, MetaForm.map] at hform
    | list args' x =>
      simp only [Attribute.map, Meta.map, MetaForm.map, Option.map_some, Option.some.injEq,
        MetaForm.list.injEq] at hform
      obtain ⟨rfl, rfl⟩ := hform
      have hx : x.Encloses ts args'.toList := ha _ rfl
      exact Source.holds_interior (p := []) (q := []) (by simp) htext hx s.file text

/-- A whole text that is a block. -/
theorem Source.implBlock_eq_ok {s : Source} (hregion : s.region = none) {b : ImplBlock Location} :
    s.implBlock = .ok b ↔ ∃ b₀ s', (Reading.whole Grammar.implBlock (depth s.text.toList)).run
        (.start Expected.block s.text.toList) = .ok (b₀, s') ∧
      b = b₀.map (Extent.location s.file s.text.toList
        (Token.spans 0 s'.taken.reverse).toArray) := by
  have hchars : s.chars = s.text.toList := by rw [chars, hregion]
  rw [implBlock, implBlockM, parseM_plain, hchars, Reading.parse_eq]
  cases (Reading.whole Grammar.implBlock (depth s.text.toList)).run
      (.start Expected.block s.text.toList) with
  | error scan => simp
  | ok p =>
    obtain ⟨b₀, s'⟩ := p
    simp [eq_comm]

/-- The attributes of a block that has been read and those of its items are found where it was
read. -/
theorem Source.foundIn_of_implBlock {s : Source} (hregion : s.region = none)
    {b : ImplBlock Location} (h : s.implBlock = .ok b) :
    (∀ a ∈ b.attrs, a.FoundIn s) ∧ ∀ i ∈ b.items, ∀ a ∈ i.attrs, a.FoundIn s := by
  obtain ⟨b₀, s', hrun, rfl⟩ := (implBlock_eq_ok hregion).mp h
  have htext := Reading.text_of_run hrun
  rw [Reading.whole] at hrun
  obtain ⟨b₁, s₁, hblock, hrun⟩ := Reading.run_bind_eq_ok.mp hrun
  obtain ⟨⟨⟩, s₂, hfinish, hrun⟩ := Reading.run_bind_eq_ok.mp hrun
  obtain ⟨rfl, rfl⟩ : b₁ = b₀ ∧ s₂ = s' := by simpa using hrun
  rw [Grammar.implBlock_eq, Reading.run_mark_bind] at hblock
  obtain ⟨attrs, s₃, hattrs, hblock⟩ := Reading.run_bind_eq_ok.mp hblock
  have hfinal := Reading.later_of_run hfinish
  -- It is enough that an attribute is sound among the tokens of the whole text.
  have hfound : ∀ a : Attribute Extent, a.Sound s₂.taken.reverse → (a.map (Extent.location s.file
      s.text.toList (Token.spans 0 s₂.taken.reverse).toArray)).FoundIn s :=
    fun a ha => Attribute.foundIn_of_sound htext ha s.text.toList
  constructor
  · intro a ha
    obtain ⟨a', ha', rfl⟩ := List.mem_map.mp ha
    rw [(Grammar.blockAfter_attrs _ _ _).of_run hblock] at ha'
    have hsound := Grammar.attributes_sound _ hattrs a' ha'
    exact hfound a' (hsound.later ((Reading.later_of_run hblock).trans hfinal))
  · intro i hi a ha
    obtain ⟨i', hi', rfl⟩ := List.mem_map.mp hi
    have hitem : (i'.map (Extent.location s.file s.text.toList
        (Token.spans 0 s₂.taken.reverse).toArray)).attrs = i'.attrs.map
          (Attribute.map (Extent.location s.file s.text.toList
            (Token.spans 0 s₂.taken.reverse).toArray)) := by
      cases i' <;> rfl
    rw [hitem] at ha
    obtain ⟨a', ha', rfl⟩ := List.mem_map.mp ha
    exact hfound a' ((Grammar.blockAfter_sound hblock i' hi' a' ha').later hfinal)

/-! ## Methods in place and on their own -/

namespace Method

variable {s : Source}

theorem follow_agree_followAlone {a : Attribute Location} (h : a.FoundIn s) (d : Directive) :
    Agree Fault.SameCause Eq (follow s d a) (followAlone d (a.map fun _ => ())) := by
  rw [follow, followM, followAlone, Attribute.isThe_map]
  split
  · rcases a with ⟨style, content, text, place⟩
    cases content with
    | none => exact .ok rfl
    | some m =>
      rcases m with ⟨path, form, place'⟩
      cases form with
      | word => exact .ok rfl
      | value => exact .error rfl
      | list args group =>
        have hplace := h args group rfl
        have halone : Source.Reads ⟨argsFile, args, none⟩ args.toList :=
          ⟨⟨[], [], Source.holds_whole argsFile args⟩, hplace.2⟩
        exact (Directive.parse_agree hplace halone).bind fun d' _ hd => .ok (by rw [hd])
  · exact .ok rfl

/-- A method whose markers are found in `s` is expanded as it would be on its own. -/
theorem directive_agree_followAlone {m : Method Location} (h : ∀ a ∈ m.attrs, a.FoundIn s) :
    Agree Fault.SameCause Eq (m.directive s) (m.content.attrs.foldlM followAlone {}) :=
  Agree.foldlM_map (fun a ha d => follow_agree_followAlone (h a ha) d) {}

/-- Its directive is that of its markers on their own. -/
theorem followAlone_of_directive {m : Method Location} (h : ∀ a ∈ m.attrs, a.FoundIn s)
    {d : Directive} (hd : m.directive s = .ok d) :
    m.content.attrs.foldlM followAlone {} = .ok d := by
  have hagree := directive_agree_followAlone h
  rw [hd] at hagree
  exact hagree.eq_ok

theorem expandAlone_of_directive {m : Method Location} (h : ∀ a ∈ m.attrs, a.FoundIn s)
    {d : Directive} (hd : m.directive s = .ok d) :
    m.content.expandAlone = .ok (m.expand d).content := by
  rw [expandAlone, followAlone_of_directive h hd, content, content, ← map_expand]
  rfl

end Method

/-! ## Expansions -/

/-- The methods among items. -/
def Item.method? : Item σ → Option (Method σ)
  | method m => some m
  | verbatim _ => none

theorem ImplBlock.methods_eq (b : ImplBlock σ) : b.methods = b.items.filterMap Item.method? := by
  refine congrArg (List.filterMap · b.items) (funext fun i => ?_)
  cases i <;> rfl

theorem methods_expandAlone {s : Source} {is js : List (Item Location)}
    (h : List.Forall₂ (fun i j => i.expand s = .ok j) is js)
    (hfound : ∀ i ∈ is, ∀ a ∈ i.attrs, a.FoundIn s) :
    List.Forall₂ (fun m m' : Method Location => m.content.expandAlone = .ok m'.content)
      (is.filterMap Item.method?) (js.filterMap Item.method?) := by
  induction h with
  | nil => exact .nil
  | cons hij _ ih =>
    have hrest := ih fun i hi => hfound i (List.mem_cons_of_mem _ hi)
    rcases Item.expand_eq_ok hij with ⟨v, rfl, rfl, -⟩ | ⟨m, d, rfl, hd, rfl⟩
    · exact hrest
    · exact .cons (Method.expandAlone_of_directive (hfound _ List.mem_cons_self) hd) hrest

namespace Request

/-- The block is not read under the name that is reserved for the arguments of its marker. -/
def Separate : Request → Prop
  | item _ _ file => file ≠ argsFile
  | source _ _ => True

theorem source_of_separate {r : Request} (hr : r.Separate) {b : ImplBlock Location} {t : Task}
    {given : String} (h : r.taskOf b = .ok (t, given)) : t.source = r.input := by
  cases r with
  | item args block file =>
    obtain ⟨rfl, -⟩ := Prod.mk.inj (Except.ok.inj h)
    rw [if_neg hr]
    rfl
  | source text file =>
    obtain ⟨⟨block, marker⟩, -, h⟩ := bind_eq_ok_iff.mp h
    obtain ⟨args, -, h⟩ := bind_eq_ok_iff.mp h
    obtain ⟨rfl, -⟩ := Prod.mk.inj (Except.ok.inj h)
    rfl

/-- Each generated method is what is made of the given one on its own. -/
theorem methods_of_result {r : Request} (hr : r.Separate) {e : Expansion}
    (h : r.outcome.result = .ok e) {b : ImplBlock Location} (hb : r.input.implBlock = .ok b) :
    List.Forall₂ (fun m m' : Method Location => m.content.expandAlone = .ok m'.content)
      b.methods e.block.methods := by
  obtain ⟨b', t, d, hb', ht, hmade⟩ := exists_made h
  obtain rfl : b = b' := Except.ok.inj (hb.symm.trans hb')
  have hitems : t.block.items = b.items := by
    obtain ⟨attrs, hblock⟩ := taskOf_block ht
    rw [hblock]
  have hexpanded := hmade.items
  rw [hitems, source_of_separate hr ht] at hexpanded
  have hregion : r.input.region = none := by cases r <;> rfl
  rw [ImplBlock.methods_eq, ImplBlock.methods_eq]
  exact methods_expandAlone hexpanded (Source.foundIn_of_implBlock hregion hb).2

theorem method_of_result {r : Request} (hr : r.Separate) {e : Expansion}
    (h : r.outcome.result = .ok e) {b : ImplBlock Location}
    (hb : r.input.implBlock = .ok b) {i : Nat} {m : Method Location} (hm : b.methods[i]? = some m) :
    ∃ n, e.block.methods[i]? = some n ∧ m.content.expandAlone = .ok n.content := by
  obtain ⟨hlength, heach⟩ := List.forall₂_iff_get.mp (methods_of_result hr h hb)
  obtain ⟨hi, rfl⟩ := List.getElem?_eq_some_iff.mp hm
  have hi' : i < e.block.methods.length := hlength ▸ hi
  exact ⟨e.block.methods.get ⟨i, hi'⟩, List.getElem?_eq_getElem hi', heach i hi hi'⟩

end Request

/-- The arguments of a block's marker show in nothing but its where clause. -/
theorem block_of_args {item file args args' : String} (hfile : file ≠ argsFile) {e e' : Expansion}
    (h : (Expansion.ofItem args item file).result = .ok e)
    (h' : (Expansion.ofItem args' item file).result = .ok e') :
    e'.block = { e.block with
      generics := ⟨e.block.generics.params, e'.block.generics.clause⟩ } := by
  obtain ⟨b, t, d, hb, ht, hmade⟩ := Request.exists_made (r := .item args item file) h
  obtain ⟨b', t', d', hb', ht', hmade'⟩ := Request.exists_made (r := .item args' item file) h'
  obtain rfl : b = b' := Except.ok.inj (hb.symm.trans hb')
  obtain ⟨rfl, -⟩ := Prod.mk.inj (Except.ok.inj ht)
  obtain ⟨rfl, -⟩ := Prod.mk.inj (Except.ok.inj ht')
  have hself : e.block.selfTy = e'.block.selfTy := Except.ok.inj
    (hmade.selfTy.symm.trans hmade'.selfTy)
  -- The methods read their own markers, in the text of the item.
  have hitems : e.block.items = e'.block.items := by
    have hgiven := mapM_eq_ok_iff.mpr hmade.items
    have hgiven' := mapM_eq_ok_iff.mpr hmade'.items
    rw [if_neg hfile] at hgiven hgiven'
    exact Except.ok.inj (hgiven.symm.trans hgiven')
  have hparams : e'.block.generics.params = e.block.generics.params := by
    rw [hmade.block, hmade'.block]
    show (b.generics.expand d').params = (b.generics.expand d).params
    rw [Generics.params_expand, Generics.params_expand]
  rw [← hparams, hmade'.block, hmade.block, hself, hitems]
  rfl

/-- Scopes do not leak. Under two markers, a block gives the same but for its where clause; and each
method gives what it gives on its own, so that it is rendered alike in any two expansions. -/
theorem scopes_isolated :
    (∀ (item file args args' : String) (e e' : Expansion), file ≠ argsFile →
      (Expansion.ofItem args item file).result = .ok e →
      (Expansion.ofItem args' item file).result = .ok e' →
      e'.block = { e.block with
        generics := ⟨e.block.generics.params, e'.block.generics.clause⟩ }) ∧
    (∀ (r : Request) (e : Expansion) (b : ImplBlock Location), r.Separate →
      r.outcome.result = .ok e → r.input.implBlock = .ok b →
      List.Forall₂ (fun m m' : Method Location => m.content.expandAlone = .ok m'.content)
        b.methods e.block.methods) ∧
    ∀ (r r' : Request) (e e' : Expansion) (b b' : ImplBlock Location), r.Separate → r'.Separate →
      r.outcome.result = .ok e → r'.outcome.result = .ok e' →
      r.input.implBlock = .ok b → r'.input.implBlock = .ok b' →
      ∀ (i j : Nat) (m m' : Method Location), b.methods[i]? = some m → b'.methods[j]? = some m' →
        m.content = m'.content → ∃ n n', e.block.methods[i]? = some n ∧
          e'.block.methods[j]? = some n' ∧ ∀ indent, n.render indent = n'.render indent := by
  refine ⟨fun item file args args' e e' hfile h h' => block_of_args hfile h h',
    fun r e b hr h hb => Request.methods_of_result hr h hb,
    fun r r' e e' b b' hr hr' h h' hb hb' i j m m' hm hm' hcontent => ?_⟩
  obtain ⟨n, hn, hmade⟩ := Request.method_of_result hr h hb hm
  obtain ⟨n', hn', hmade'⟩ := Request.method_of_result hr' h' hb' hm'
  refine ⟨n, n', hn, hn', fun indent => ?_⟩
  -- Both come from the same content, and rendering looks at nothing else.
  have hsame : n.content = n'.content := by
    rw [hcontent, hmade'] at hmade
    exact (Except.ok.inj hmade).symm
  calc
    n.render indent = n.content.render indent := (n.render_map _ indent).symm
    _ = n'.content.render indent := by rw [hsame]
    _ = n'.render indent := n'.render_map _ indent

deriving instance DecidableEq for MetaForm, Meta, Attribute

/-- A method without generics can be told by its other fields. -/
theorem exists_plain_method {s : Source} {name head params body : String} {ret : Option String}
    {attrs : List (Attribute Unit)} (h : (s.implBlock.toOption.map fun b => b.methods.map fun m =>
      decide (m.name = name ∧ m.content.attrs = attrs ∧ m.head = head ∧
        (m.generics.params.isEmpty ∧ m.generics.clause.isNone) ∧ m.params = params ∧ m.ret = ret ∧
        m.body = body)) = some [true]) :
    ∃ b m, s.implBlock = .ok b ∧ b.methods[0]? = some m ∧
      m.content = ⟨name, attrs, head, ⟨[], none⟩, params, ret, body, ()⟩ := by
  cases hb : s.implBlock with
  | error f => simp [hb, Except.toOption] at h
  | ok b =>
    simp only [hb, Except.toOption, Option.map_some, Option.some.injEq] at h
    obtain ⟨m, hm, hfields⟩ := List.map_eq_singleton_iff.mp h
    refine ⟨b, m, rfl, by rw [hm]; rfl, ?_⟩
    rcases m with ⟨name, attrs, head, ⟨params, clause⟩, text, ret, body, place⟩
    simp only [decide_eq_true_eq, List.isEmpty_iff, Option.isNone_iff_eq_none] at hfields
    obtain ⟨rfl, rfl, rfl, ⟨rfl, rfl⟩, rfl, rfl, rfl⟩ := hfields
    rfl

/-- The same method beside another item and under another marker of the block. -/
theorem scopes_isolated_neighbour :
    ∃ (e e' : Expansion) (n n' : Method Location),
      (Request.item "" "impl X \x7b #[shadow_method(add_bounds(T: B))] fn f(); \x7d"
        "<input>").outcome.result = .ok e ∧
      (Request.item "add_bounds(T: C)"
        "impl X \x7b const C: T = 1; #[shadow_method(add_bounds(T: B))] fn f(); \x7d"
        "<input>").outcome.result = .ok e' ∧
      e.block.methods[0]? = some n ∧ e'.block.methods[0]? = some n' ∧
      n.render "" = n'.render "" := by
  have hfile : "<input>" ≠ argsFile := by decide
  obtain ⟨e, he⟩ := exists_of_isOk (x := (Request.item ""
    "impl X \x7b #[shadow_method(add_bounds(T: B))] fn f(); \x7d" "<input>").outcome.result)
    (by decide +kernel)
  obtain ⟨e', he'⟩ := exists_of_isOk (x := (Request.item "add_bounds(T: C)"
    "impl X \x7b const C: T = 1; #[shadow_method(add_bounds(T: B))] fn f(); \x7d"
    "<input>").outcome.result) (by decide +kernel)
  -- Read alone or beside the constant, the method has the same content.
  have hmethod : ∀ text ∈ ["impl X \x7b #[shadow_method(add_bounds(T: B))] fn f(); \x7d",
      "impl X \x7b const C: T = 1; #[shadow_method(add_bounds(T: B))] fn f(); \x7d"],
      ∃ b m, Source.implBlock ⟨"<input>", text, none⟩ = .ok b ∧ b.methods[0]? = some m ∧
        m.content = ⟨"f", [⟨.outer, some ⟨"shadow_method", .list "add_bounds(T: B)" (), ()⟩,
          "#[shadow_method(add_bounds(T: B))]", ()⟩], "fn f", ⟨[], none⟩, "()", none, ";", ()⟩ := by
    intro text htext
    apply exists_plain_method
    revert text
    decide +kernel
  obtain ⟨b, m, hb, hm, hcontent⟩ := hmethod _ List.mem_cons_self
  obtain ⟨b', m', hb', hm', hcontent'⟩ := hmethod _ (List.mem_cons_of_mem _ List.mem_cons_self)
  obtain ⟨n, n', hn, hn', hrender⟩ := scopes_isolated.2.2 (.item _ _ _)
    (.item _ _ _) e e' b b' hfile hfile he he' hb hb' 0 0 m m' hm hm'
    (hcontent.trans hcontent'.symm)
  exact ⟨e, e', n, n', he, he', hn, hn', hrender ""⟩

end ShadowImpl
