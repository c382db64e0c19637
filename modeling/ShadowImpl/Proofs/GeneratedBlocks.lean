import ShadowImpl.Proofs.Frame
import ShadowImpl.Proofs.MetaLists
import ShadowImpl.Proofs.QuotedBlocks

/-!
# Generated blocks read back

The text that is generated for a block is read as the block that was generated, unless the name of
the self type is raw.
-/

namespace ShadowImpl

open Filter Reading Grammar

variable {σ τ : Type} {src : Source} {y : List Char} {d : Directive} {file text : String}
    {e : Expansion}
  {b : ImplBlock Extent} {ts : List Token} {g : List Char}

/-! ## Items -/

theorem exists_of_map_eq {α β γ : Type} {f : α → γ} {f' : β → γ} {as : List α} {bs : List β}
    (h : as.map f = bs.map f') {b : β} (hb : b ∈ bs) : ∃ a ∈ as, f a = f' b :=
  List.mem_map.mp (h ▸ List.mem_map_of_mem hb)

theorem Attribute.arguments_congr {a : Attribute σ} {a' : Attribute τ}
    (h : a.unplaced = a'.unplaced) : a.arguments = a'.arguments := by
  rw [← a.arguments_map fun _ => (), ← a'.arguments_map fun _ => ()]
  exact congrArg Attribute.arguments h

theorem AttributesBefore.unplaced {as : List (Attribute σ)} (h : AttributesBefore as y) :
    AttributesBefore (as.map Attribute.unplaced) y := by
  have hsame : (fun a : Attribute σ => a.unplaced.arguments) = Attribute.arguments :=
    funext fun a => a.arguments_map _
  rwa [AttributesBefore, List.flatMap_map, hsame]

/-- An item becomes what it is expanded to, whatever its places are. -/
theorem Item.becomes_of_expand {i₀ : Item σ} {i j : Item Location} (h : i₀.unplaced = i.unplaced)
    (hj : i.expand src = .ok j) (hfound : ∀ a ∈ i.attrs, a.FoundIn src)
    (hbefore : AttributesBefore i₀.attrs y) (hy : Shuts y)
    (hplain : ∀ m, j = .method m → m.generics.Plain ∧ m.Obtained) : i₀.Becomes j := by
  -- Only methods are rewritten.
  rcases Item.expand_eq_ok hj with ⟨v, rfl, rfl, -⟩ | ⟨m, d, rfl, hd, rfl⟩
  · cases i₀ with
    | method m => simp [unplaced, map] at h
    | verbatim v₀ => exact .verbatim h
  · cases i₀ with
    | verbatim v => simp [unplaced, map] at h
    | method m₀ =>
      obtain ⟨hplain, hobtained⟩ := hplain _ rfl
      have hcontent : m₀.content = m.content := Item.method.inj h
      have hattrs : m₀.attrs.map Attribute.unplaced = m.attrs.map Attribute.unplaced :=
        congrArg Method.attrs hcontent
      have halone := Method.followAlone_of_directive hfound hd
      have hbefore' : AttributesBefore m.content.attrs y := by
        change AttributesBefore (m.attrs.map Attribute.unplaced) y
        exact hattrs ▸ AttributesBefore.unplaced hbefore
      refine .method (congrArg Method.name hcontent).symm (congrArg Method.head hcontent).symm
        (congrArg Method.params hcontent).symm (congrArg Method.ret hcontent).symm
        (congrArg Method.body hcontent).symm ?_
        (Method.legible_followAlone hbefore' hy Directive.legible_empty halone) ?_ hplain ?_
      · intro a ha
        exact exists_of_map_eq hattrs (List.mem_of_mem_filter ha)
      · rw [show m₀.generics = m.generics from congrArg Method.generics hcontent]
        rfl
      · exact fun p hp => (hobtained.uncut.predicates p hp).print

/-- Items become what they are expanded to. -/
theorem becomes_of_expand {is₀ : List (Item σ)} {is js : List (Item Location)}
    (hjs : List.Forall₂ (fun i j => i.expand src = .ok j) is js)
    (h : is₀.map Item.unplaced = is.map Item.unplaced)
    (hfound : ∀ i ∈ is, ∀ a ∈ i.attrs, a.FoundIn src)
    (hbefore : ∀ i ∈ is₀, AttributesBefore i.attrs y) (hy : Shuts y)
    (hplain : ∀ m ∈ js.filterMap Item.method?, m.generics.Plain ∧ m.Obtained) :
    List.Forall₂ Item.Becomes is₀ js := by
  induction hjs generalizing is₀ with
  | nil =>
    obtain rfl : is₀ = [] := by simpa using h
    exact .nil
  | @cons i j is js hj _ ih =>
    obtain ⟨i₀, is₀, rfl, hi, his⟩ := List.map_eq_cons_iff.mp h
    rw [List.forall_mem_cons] at hfound hbefore
    refine .cons (Item.becomes_of_expand hi hj hfound.1 hbefore.1 hy ?_)
      (ih his hfound.2 hbefore.2 ?_)
    · rintro m rfl
      exact hplain m (by simp [Item.method?])
    · intro m hm
      refine hplain m ?_
      rw [List.filterMap_cons]
      split
      · exact hm
      · exact List.mem_cons_of_mem _ hm

/-! ## Blocks -/

/-- The arguments of a marker that has been followed, on their own. -/
theorem Expansion.parse_of_markerArgs {marker : Attribute Location}
    (hfound : marker.FoundIn src) {args : Source} (hargs : markerArgs src marker = .ok args)
    (hd : Directive.parse args = .ok d) :
    Directive.parse ⟨argsFile, marker.argsText, none⟩ = .ok d := by
  have hvalue : marker.content.map Meta.form ≠ some .value := by
    intro hvalue
    simp [markerArgs, hvalue] at hargs
  obtain ⟨args', hargs', hagree⟩ := markerArgs_agree hfound hvalue
  obtain rfl : args = args' := Except.ok.inj (hargs.symm.trans hargs')
  rw [hd] at hagree
  exact hagree.eq_ok

/-- A block that has been read becomes what is generated for it, whatever its places are. -/
theorem ImplBlock.becomes_of_ofSource (h : (Expansion.ofSource text file).result = .ok e)
    {b₁ : ImplBlock Location} (hb : Source.implBlock ⟨file, text, none⟩ = .ok b₁) {b : ImplBlock σ}
    (hsame : b.unplaced = b₁.unplaced) (hattrs : AttributesBefore b.attrs y)
    (hitems : ∀ i ∈ b.items, AttributesBefore i.attrs y) (hy : Shuts y) (hplain : e.block.Plain) :
    ∃ d, b.Becomes d e.block := by
  have hshadow := Request.selfTy_shadow (r := .source text file) h hb
  obtain ⟨b₂, t, d, hb', ht, hmade⟩ := Request.exists_made (r := .source text file) h
  obtain rfl : b₁ = b₂ := Except.ok.inj (hb.symm.trans hb')
  obtain ⟨hfound, hfoundItems⟩ := Source.foundIn_of_implBlock rfl hb
  -- The marker is taken from the attributes, and its arguments become the directive.
  obtain ⟨⟨b', marker⟩, hmarker, ht⟩ := bind_eq_ok_iff.mp ht
  obtain ⟨args, hargs, ht⟩ := bind_eq_ok_iff.mp ht
  obtain ⟨rfl, -⟩ := Prod.mk.inj (Except.ok.inj ht)
  obtain ⟨as, bs, hsplit, -, rfl, -⟩ := Expansion.exists_of_takeMarker hmarker
  have hmem : marker ∈ b₁.attrs := by simp [hsplit]
  have hsameAttrs : b.attrs.map Attribute.unplaced = b₁.attrs.map Attribute.unplaced :=
    congrArg ImplBlock.attrs hsame
  have hsame' : b.unplaced.generics = b₁.unplaced.generics ∧
      b.unplaced.traitRef = b₁.unplaced.traitRef ∧ b.unplaced.selfTy = b₁.unplaced.selfTy := by
    rw [hsame]
    exact ⟨rfl, rfl, rfl⟩
  obtain ⟨hgenerics, htrait, hself⟩ := hsame'
  have hobtained := Request.obtained_methods (r := .source text file) h
  refine ⟨d, ?_, ?_, ?_, ?_, ?_, ?_, ?_⟩
  · intro a ha
    refine exists_of_map_eq hsameAttrs ?_
    rw [hmade.block] at ha
    have ha : a ∈ as ++ bs := ha
    rw [hsplit]
    exact List.mem_append.mpr ((List.mem_append.mp ha).imp_right (List.mem_cons_of_mem _))
  · obtain ⟨marker₀, hmem₀, hmarker₀⟩ := exists_of_map_eq hsameAttrs hmem
    have hargsText := Expansion.parse_of_markerArgs (hfound marker hmem) hargs hmade.directive
    refine Attribute.legible_of_parse (fun v hv => hattrs v ?_) hy hargsText
    rw [← Attribute.arguments_congr hmarker₀] at hv
    exact List.mem_flatMap.mpr ⟨marker₀, hmem₀, hv⟩
  · rw [hmade.block, show b.generics = b₁.generics from hgenerics]
    rfl
  · rw [hmade.block, show b.traitRef = b₁.traitRef from htrait]
    rfl
  · rwa [show b.selfTy = b₁.selfTy from hself]
  · intro a ha
    refine exists_of_map_eq (congrArg ImplBlock.innerAttrs hsame) ?_
    rw [hmade.block] at ha
    exact ha
  · exact becomes_of_expand hmade.items (congrArg ImplBlock.items hsame) hfoundItems hitems hy
      fun m hm => ⟨hplain.methods m hm, hobtained m hm⟩

/-! ## Reading a generated text -/

/-- What is read at every large depth is read at the depth that the text is read at. -/
theorem Source.exists_of_readsAs {P : ImplBlock Extent → Prop}
    (h : ∀ᶠ n in atTop, (Grammar.implBlock n).ReadsAs P Expected.block text.toList [] [])
    (file : String) : ∃ b b₀, Source.implBlock ⟨file, text, none⟩ = .ok b ∧ P b₀ ∧
    b.unplaced = b₀.unplaced := by
  obtain ⟨n, hreads, hn⟩ := (h.and (eventually_ge_atTop (depth text.toList))).exists
  obtain ⟨b₀, taken, hb₀, hrun⟩ := hreads []
  have hdepth : 16 * text.toList.length + 1 ≤ depth text.toList := by
    rw [depth]
    omega
  have hwhole := whole_depth (whole_ok_iff.mpr ⟨hrun, rfl⟩) (hdepth.trans hn) hdepth
  exact ⟨_, b₀, (implBlock_eq_ok rfl).mpr ⟨b₀, _, hwhole, rfl⟩, hb₀, b₀.unplaced_map _⟩

theorem Source.ReadBlock.exists_run (hread : Source.ReadBlock ⟨file, text, none⟩ b ts)
    (htext : text.toList = Token.spelled ts ++ g) : ∃ s, s.taken.reverse = ts ∧ s.rest = g ∧
      (Reading.whole Grammar.implBlock (depth text.toList)).run
      (.start Expected.block text.toList) = .ok (b, s) := by
  obtain ⟨s, hrun, hend, rfl⟩ := Reading.parse_eq_ok_iff.mp hread
  exact ⟨s, rfl, List.append_cancel_left ((Reading.text_of_run hrun).symm.trans htext),
    whole_ok_iff.mpr ⟨hrun, hend⟩⟩

/-- What is generated for a block that leaves nothing open is read in print, unless
its name is raw. -/
theorem legible_of_ofSource (h : (Expansion.ofSource text file).result = .ok e)
    (hread : Source.ReadBlock ⟨file, text, none⟩ b ts) (htext : text.toList = Token.spelled ts ++ g)
    (hshut : Shut ts g) (hplain : e.block.Plain) (hraw : ¬ b.selfTy.RawNamed) :
    e.block.Legible := by
  obtain ⟨s, rfl, rfl, hwhole⟩ := hread.exists_run htext
  have hb := (Source.implBlock_eq_ok (s := ⟨file, text, none⟩) rfl).mpr ⟨b, s, hwhole, rfl⟩
  -- in front of text that closes everything the block is quoted
  have hshuts : Shuts (s.rest ++ closers) := shuts_closers.behind _
  obtain ⟨b', hsame, hrun'⟩ := implBlock_prolonged
    (m := 16 * (text.toList ++ closers).length + 3) hwhole (by rw [depth]; omega)
    (by rw [List.length_append]; omega) hshut
  obtain ⟨hattrs, hitems⟩ := implBlock_before hrun'
  have hquoted := implBlock_quoted hrun' (Nat.le_refl _) hshuts
  obtain ⟨d, hbecomes⟩ := ImplBlock.becomes_of_ofSource h hb
    (hsame.trans (b.unplaced_map _).symm) hattrs hitems hshuts hplain
  have hself : b'.selfTy = b.selfTy := congrArg (fun c : ImplBlock Unit => c.selfTy) hsame
  exact hbecomes.legible hquoted hplain (hself ▸ hraw)

theorem Source.exists_readBlock {name : Option String}
    (h : (Reading.parse Grammar.implBlock Expected.block text.toList).toOption.map
    (fun p => p.value.selfTy.lastName?) = some name) (file : String) :
    ∃ b ts g, Source.ReadBlock ⟨file, text, none⟩ b ts ∧ text.toList = Token.spelled ts ++ g ∧
      b.selfTy.lastName? = name := by
  obtain ⟨⟨b, ts⟩, hread, hname⟩ := exists_of_map h
  obtain ⟨s, hrun, -, rfl⟩ := Reading.parse_eq_ok_iff.mp hread
  exact ⟨b, _, s.rest, hread, Reading.text_of_run hrun, hname⟩

/-- A block is plain whose names are, if it has no parameters that are constants and no
generic methods. -/
theorem ImplBlock.Plain.of_labels {b : ImplBlock σ}
    (hparams : (b.generics.params.all fun | .const .. => false | _ => true) = true)
    (hmethods : (b.methods.all fun m => m.generics.params.isEmpty &&
      m.generics.predicates.isEmpty) = true)
    (hlabels : ∀ l ∈ b.selfTy.view.labels ++ b.generics.predicates.flatMap fun p =>
      p.view.labels, l.Plain) :
    b.Plain := by
  refine ⟨fun l hl => hlabels l (List.mem_append_left _ hl),
    ⟨fun p hp => ?_, fun p hp l hl => ?_⟩, fun m hm => ?_⟩
  · obtain ⟨p, hmem, rfl⟩ := List.mem_map.mp hp
    have hkind := List.all_eq_true.mp hparams p hmem
    cases p with
    | const => simp at hkind
    | _ => simp [GenericParam.withoutDefault, GenericParam.Plain]
  · exact hlabels l (List.mem_append_right _ (List.mem_flatMap.mpr ⟨p, hp, hl⟩))
  · have hempty := List.all_eq_true.mp hmethods m hm
    rw [Bool.and_eq_true, List.isEmpty_iff, List.isEmpty_iff] at hempty
    exact ⟨by simp [hempty.1], by simp [hempty.2]⟩

/-- What is generated for a type with a raw name is never read back. What is generated for any other
type is, when no token of the text leaves anything open and what is printed is plain. -/
theorem ofSource_readsBack (h : (Expansion.ofSource text file).result = .ok e)
    (hread : Source.ReadBlock ⟨file, text, none⟩ b ts) (htext : text.toList = Token.spelled ts ++ g)
    (file' : String) : (b.selfTy.RawNamed → ¬ e.ReadsBack file') ∧
      (Shut ts g → e.block.Plain → (e.ReadsBack file' ↔ ¬ b.selfTy.RawNamed)) := by
  have hraw : b.selfTy.RawNamed → ¬ e.ReadsBack file' := by
    intro hraw
    obtain ⟨s, -, -, hwhole⟩ := hread.exists_run htext
    have hb := (Source.implBlock_eq_ok (s := ⟨file, text, none⟩) rfl).mpr ⟨b, s, hwhole, rfl⟩
    exact not_readsBack_of_raw (r := .source text file) h hb hraw file'
  refine ⟨hraw, fun hshut hplain => ⟨fun hreads hname => hraw hname hreads, fun hname => ?_⟩⟩
  have hlegible := legible_of_ofSource h hread htext hshut hplain hname
  obtain ⟨_, _, d, -, -, hmade⟩ := Request.exists_made (r := .source text file) h
  obtain ⟨b', b₀, hb', hb₀, hsame⟩ := Source.exists_of_readsAs hlegible.readsAs file'
  refine ⟨b', ?_, hsame.trans hb₀⟩
  rwa [hmade.generated]

/-- What is not plain need not be read back: a keyword can be the name of a parameter, a binder
without lifetimes is not printed, and a comment can end the length of an array. -/
example : ∀ text ∈ ["#[shadow_impl(transform_bounds(fn))] impl X \x7b\x7d",
    "#[shadow_impl] impl<fn: A> X \x7b\x7d", "#[shadow_impl] impl X where for<> for: A \x7b\x7d",
    "#[shadow_impl] impl X<[u8; 1 ///\n]> \x7b\x7d"],
    (Expansion.ofSource text "a.rs").result.toOption.map
      (fun e => (Source.implBlock ⟨"b.rs", e.generated, none⟩).isOk) = some false := by
  decide +kernel

/-- A parameter that is projected; and a raw name. -/
theorem ofSource_readsBack_projected :
    (∃ e, (Expansion.ofSource
      "#[shadow_impl(transform_bounds(T))] impl<T: A> X<T> \x7b fn f(); \x7d"
      "a.rs").result = .ok e ∧ e.ReadsBack "b.rs") ∧
    ∃ e, (Expansion.ofSource "#[shadow_impl] impl r#X \x7b\x7d" "a.rs").result = .ok e ∧
    ¬ e.ReadsBack "b.rs" := by
  constructor
  · have hprinted : (Expansion.ofSource
        "#[shadow_impl(transform_bounds(T))] impl<T: A> X<T> \x7b fn f(); \x7d"
          "a.rs").result.toOption.map
          (fun e => (e.block.generics.params.all fun | .const .. => false | _ => true,
            e.block.methods.all fun m => m.generics.params.isEmpty && m.generics.predicates.isEmpty,
            e.block.selfTy.view.labels ++ e.block.generics.predicates.flatMap fun p =>
              p.view.labels)) =
        some (true, true, [.pathTy, .path false, .segment "ShadowX", .angleArgs false,
          .tyArg, .pathTy, .path false, .segment "T", .tyPredicate [], .pathTy, .path false,
          .segment "T", .segment "Shadowed", .traitBound false [], .path false, .segment "A",
          .tyPredicate [], .pathTy, .path false, .segment "T", .traitBound false [], .path false,
          .segment "Shadow"]) := by
      decide +kernel
    have hname : (Reading.parse Grammar.implBlock Expected.block
      "#[shadow_impl(transform_bounds(T))] impl<T: A> X<T> \x7b fn f(); \x7d".toList).toOption.map
        (fun p => p.value.selfTy.lastName?) = some (some "X") := by
      decide +kernel
    obtain ⟨e, he, hfacts⟩ := exists_of_map hprinted
    obtain ⟨hparams, hfacts⟩ := Prod.mk.inj hfacts
    obtain ⟨hmethods, hlabels⟩ := Prod.mk.inj hfacts
    obtain ⟨b, ts, g, hread, htext, hname⟩ := Source.exists_readBlock hname "a.rs"
    have hshut : Shut ts g := by
      apply shut_of_openings
      rw [← htext]
      intro m
      cases m <;> decide +kernel
    have hnames : ∀ name ∈ ["ShadowX", "T", "Shadowed", "A", "T", "Shadow"],
        ∀ κ ∈ Terminal.keywords, κ.spelling ≠ name.toList := by
      decide +kernel
    -- No parameter of the block is a constant, and none of the printed names is a keyword.
    have hplain : e.block.Plain := by
      refine .of_labels hparams hmethods ?_
      rw [hlabels]
      simpa [Label.Plain] using hnames
    refine ⟨e, he, ((ofSource_readsBack he hread htext "b.rs").2 hshut hplain).mpr ?_⟩
    rintro ⟨name, hname', hraw⟩
    obtain rfl : "X" = name := Option.some.inj (hname.symm.trans hname')
    exact absurd hraw (by decide)
  · obtain ⟨e, he⟩ := exists_of_isOk
      (x := (Expansion.ofSource "#[shadow_impl] impl r#X \x7b\x7d" "a.rs").result)
      (by decide +kernel)
    have hname : (Reading.parse Grammar.implBlock Expected.block
      "#[shadow_impl] impl r#X \x7b\x7d".toList).toOption.map
        (fun p => p.value.selfTy.lastName?) = some (some "r#X") := by
      decide +kernel
    obtain ⟨b, ts, g, hread, htext, hname⟩ := Source.exists_readBlock hname "a.rs"
    exact ⟨e, he, (ofSource_readsBack he hread htext "b.rs").1 ⟨_, hname, by decide⟩⟩

end ShadowImpl
