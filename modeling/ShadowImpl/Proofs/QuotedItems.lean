import ShadowImpl.Proofs.BlockParts
import ShadowImpl.Proofs.LegibleScopes
import ShadowImpl.Proofs.QuotedAttributes
import ShadowImpl.Proofs.TypeEnds

/-!
# Quoted items

An associated constant, an associated type and a macro call are written with the text that they
were read with. A method is written from its parts, of which the generics are printed and the
others are quoted.
-/

namespace ShadowImpl

open Filter Lexeme Recogniser Reading

variable {σ : Type} {s s' s₁ : Scan} {n : Nat} {as : List (Attribute Extent)}
  {ends : List Terminal} {e e' : Expectation} {g z indent : List Char} {i : Item Extent}

/-! ## Attributes of items -/

/-- The item with other attributes. -/
def Item.withAttrs (attrs : List (Attribute σ)) : Item σ → Item σ
  | method m => method { m with attrs }
  | verbatim v => verbatim { v with attrs }

namespace Grammar

theorem member_withAttrs (first : Nat) (n : Nat) :
    member as first n = member [] first n >>= fun i => pure (i.withAttrs as) := by
  have hverbatim (kind : ItemKind) : verbatimRest kind as first n =
      verbatimRest kind [] first n >>= fun i => pure (i.withAttrs as) := by
    simp only [verbatimRest, bind_assoc]
    rfl
  have hmethod : method as first n = method [] first n >>= fun i => pure (i.withAttrs as) := by
    simp only [method, bind_assoc]
    rfl
  have hconst : constOrMethod as first n = constOrMethod [] first n >>=
      fun i => pure (i.withAttrs as) := by
    simp only [constOrMethod, bind_assoc]
    refine congrArg (_ >>= ·) (funext fun _ => congrArg (_ >>= ·) (funext fun t => ?_))
    split
    · rw [bind_assoc, ← hverbatim]
    · exact hmethod
  simp only [member, bind_assoc]
  refine congrArg (_ >>= ·) (funext fun t => ?_)
  split
  · simp only [bind_assoc, ← hverbatim]
  · exact hconst
  · exact hmethod

/-- What is read of an item does not depend on its attributes. -/
theorem item_withAttrs (n : Nat) : item as n = item [] n >>= fun i => pure (i.withAttrs as) := by
  simp only [item, bind_assoc]
  refine congrArg (_ >>= ·) (funext fun t => ?_)
  split
  · simp only [macroCall, bind_assoc]
    rfl
  · simp only [bind_assoc]
    refine congrArg (_ >>= ·) (funext fun first => congrArg (_ >>= ·) (funext fun _ =>
      congrArg (_ >>= ·) (funext fun t => ?_)))
    split
    · simp only [bind_assoc, ← member_withAttrs]
    · exact member_withAttrs first n
  · simp only [bind_assoc, ← member_withAttrs]

/-! ## The start of a method -/

/-- A method up to its name: the name, the text, and the number of the first token. -/
structure Front where
  name : String
  head : String
  first : Nat

def methodFront (first n : Nat) : Reading Front := do
  qualifiers n
  let _ ← token .kwFn Expected.name
  let name ← token .ident Expected.afterMethodName
  return ⟨name, ← textFrom first, first⟩

/-- A method up to its name, after its visibility. -/
def memberFront (first n : Nat) : Reading Front := do
  match ← peek with
  | .kwType => refuse
  | .kwConst =>
    let _ ← token .kwConst (.ident :: Expected.qualifier)
    if (← peek) = .ident then refuse else methodFront first n
  | _ => methodFront first n

/-- An item that is a method, up to its name. -/
def itemFront (n : Nat) : Reading Front := do
  match ← peek with
  | .ident => refuse
  | .kwPub =>
    let first ← mark
    let _ ← shift Expected.afterPub
    if (← peek) = .lpar then group n
    memberFront first n
  | _ => memberFront (← mark) n

/-- The signature of a method behind its name. -/
def signatureRest (attrs : List (Attribute Extent)) (front : Front) (n : Nat) :
    Reading (Method Extent) := do
  let params ← params n
  let paramText ← paramText n
  let ret ← returnText n
  let clause ← whereClause n
  return ⟨front.name, attrs, front.head, ⟨params, clause⟩, paramText, ret, "",
    ⟨front.first, front.first⟩⟩

theorem memberHead_eq (first : Nat) :
    memberHead as first n = memberFront first n >>= fun f => signatureRest as f n := by
  have hmethod : methodHead as first n = methodFront first n >>= fun f => signatureRest as f n := by
    simp only [methodHead, methodFront, bind_assoc]
    rfl
  simp only [memberHead, memberFront, bind_assoc]
  refine congrArg (_ >>= ·) (funext fun t => ?_)
  split
  · rfl
  · simp only [bind_assoc]
    refine congrArg (_ >>= ·) (funext fun _ => congrArg (_ >>= ·) (funext fun t => ?_))
    split
    · rfl
    · exact hmethod
  · simp only [hmethod]

theorem itemHead_eq : itemHead as n = itemFront n >>= fun f => signatureRest as f n := by
  simp only [itemHead, itemFront, bind_assoc]
  refine congrArg (_ >>= ·) (funext fun t => ?_)
  split
  · rfl
  · simp only [bind_assoc]
    refine congrArg (_ >>= ·) (funext fun first => congrArg (_ >>= ·) (funext fun _ =>
      congrArg (_ >>= ·) (funext fun t => ?_)))
    split
    · simp only [bind_assoc, ← memberHead_eq]
    · exact memberHead_eq first
  · simp only [bind_assoc, ← memberHead_eq]

section Alike

variable {N : Nat → Nat → Prop} {m L first first' : Nat} {κ : Option Terminal}

theorem memberFront_alike (hfirst : N first first') (hn : 16 * L + 1 ≤ n) (hm : 16 * L + 1 ≤ m) :
    Alike anyTable N (fun _ _ a b => a.name = b.name ∧ a.head = b.head) L e κ
      (memberFront first n) (memberFront first' m) := by
  have hmethod : ∀ {i e' κ'}, i ≤ L →
    Alike anyTable N (fun _ _ a b => a.name = b.name ∧ a.head = b.head) i e' κ'
      (methodFront first n) (methodFront first' m) := by
    intro i e' κ' hi
    rw [methodFront, methodFront]
    refine (qualifiers_alike n (by omega) (by omega)).bind fun _ _ _ _ _ _ _ => ?_
    refine Alike.token_bind trivial fun _ _ _ => Alike.token_bind trivial fun _ _ name => ?_
    exact Alike.textFrom_bind hfirst fun head => Alike.pure ⟨rfl, rfl⟩
  rw [memberFront, memberFront]
  refine Alike.peek_bind fun t => ?_
  split
  · exact .refuse
  · refine Alike.token_bind trivial fun _ _ _ => Alike.peek_bind fun t => ?_
    split
    · exact .refuse
    · exact hmethod (by omega)
  · exact hmethod le_rfl

theorem itemFront_alike (hn : 16 * L + 1 ≤ n) (hm : 16 * L + 1 ≤ m) :
    Alike anyTable N (fun _ _ a b => a.name = b.name ∧ a.head = b.head) L e κ (itemFront n)
      (itemFront m) := by
  rw [itemFront, itemFront]
  refine Alike.peek_bind fun t => ?_
  split
  · exact .refuse
  · refine Alike.mark_bind fun a b hab => Alike.shift_bind trivial fun i hi _ =>
      Alike.peek_bind fun t => ?_
    split
    · refine group_bind_any (by omega) (by omega) fun _ _ _ _ _ _ => ?_
      exact memberFront_alike hab (by omega) (by omega)
    · exact memberFront_alike hab (by omega) (by omega)
  · exact Alike.mark_bind fun a b hab => memberFront_alike hab hn hm

end Alike

theorem closes_memberFront (first n : Nat) :
    Closes [Expected.afterMethodName] ends false (memberFront first n) := by
  have hmethod : Closes [Expected.afterMethodName] ends false (methodFront first n) := by
    rw [methodFront]
    refine .after (qualifiers n) fun _ => .after (token _ _) fun _ => .bind
      (.token (by simp)) fun _ => ?_
    exact .bind (.textFrom first) fun _ => .done
  rw [memberFront]
  refine .after peek fun t => ?_
  split
  · exact .refuse
  · refine .after (token _ _) fun _ => .after peek fun t => ?_
    split
    · exact .refuse
    · exact hmethod
  · exact hmethod

theorem closes_itemFront (n : Nat) :
    Closes [Expected.afterMethodName] ends false (itemFront n) := by
  rw [itemFront]
  refine .after peek fun t => ?_
  split
  · exact .refuse
  · refine .after mark fun first => .after (shift _) fun _ => .after peek fun t => ?_
    split
    · exact .after (group n) fun _ => closes_memberFront first n
    · exact closes_memberFront first n
  · exact .after mark fun first => closes_memberFront first n

/-- A method starts with a keyword. -/
theorem kind_of_qualifiers {α : Type} {f : String → Reading α} {a : α}
    (h : (qualifiers n >>= fun _ => token .kwFn Expected.name >>= f).run s = .ok (a, s')) :
    s.next.kind ∈ methodKeywords := by
  obtain ⟨⟨⟩, s₁, hqualifiers, h⟩ := run_bind_eq_ok.mp h
  cases n with
  | zero => simp [qualifiers] at hqualifiers
  | succ n =>
    rw [qualifiers, run_peek_bind] at hqualifiers
    split at hqualifiers
    iterate 4 rename_i hkind; simp [hkind, methodKeywords]
    · obtain rfl : s = s₁ := by simpa using hqualifiers
      obtain ⟨t, r, hnext, ht, -⟩ := run_token_bind_eq_ok.mp h
      rw [kind_of_token hnext, ht]
      decide

theorem memberFront_starts {first : Nat} {f : Front}
    (h : (memberFront first n).run s = .ok (f, s')) : s.next.kind ∈ methodKeywords := by
  rw [memberFront, run_peek_bind] at h
  split at h
  · simp at h
  · rename_i hkind
    simp [hkind, methodKeywords]
  · exact kind_of_qualifiers h

theorem itemFront_starts {f : Front} (h : (itemFront n).run s = .ok (f, s')) :
    s.next.kind ∈ methodKeywords := by
  rw [itemFront, run_peek_bind] at h
  split at h
  · simp at h
  · rename_i hkind
    simp [hkind, methodKeywords]
  · rw [run_mark_bind] at h
    exact memberFront_starts h

/-- What an item may start with. -/
def itemStarts : List Terminal :=
  .ident :: .kwType :: methodKeywords

theorem item_starts (h : (item as n).run s = .ok (i, s')) : s.next.kind ∈ itemStarts := by
  rw [item, run_peek_bind] at h
  split at h
  · rename_i hkind
    simp [hkind, itemStarts]
  · rename_i hkind
    simp [hkind, itemStarts, methodKeywords]
  · rw [run_mark_bind, member, run_peek_bind] at h
    split at h
    · rename_i hkind
      simp [hkind, itemStarts]
    · rename_i hkind
      simp [hkind, itemStarts, methodKeywords]
    · exact List.mem_cons_of_mem _ (List.mem_cons_of_mem _ (kind_of_qualifiers h))

/-- A token that is no documentation opens no line. -/
theorem not_slashes_of_token {x y : List Char} {t : Token} (h : Next.of e x = .token t y)
    (ht : t.kind ∉ [Terminal.docComment, .innerDoc]) : ¬ ['/', '/'] <+: t.text :=
  fun hslashes => ht (isLineDoc_of_token h hslashes).1

/-- A method is read up to its name, and its text is kept. -/
theorem methodFront_last {first : Nat} {f : Front} (h : (methodFront first n).run s = .ok (f, s')) :
    f.head.toList = s'.textFrom first ∧ ∀ t ∈ s'.taken.head?, ¬ ['/', '/'] <+: t.text := by
  rw [methodFront] at h
  obtain ⟨⟨⟩, s₁, -, h⟩ := run_bind_eq_ok.mp h
  obtain ⟨t, r, -, -, h⟩ := run_token_bind_eq_ok.mp h
  obtain ⟨u, r', hnext, hu, h⟩ := run_token_bind_eq_ok.mp h
  rw [run_textFrom_bind, run_pure] at h
  obtain ⟨rfl, rfl⟩ := Prod.mk.inj (Except.ok.inj h)
  refine ⟨String.toList_ofList, fun v hv => ?_⟩
  obtain rfl : u = v := by simpa using hv
  exact not_slashes_of_token hnext (by rw [hu]; decide)

theorem memberFront_last {first : Nat} {f : Front} (h : (memberFront first n).run s = .ok (f, s')) :
    f.head.toList = s'.textFrom first ∧ ∀ t ∈ s'.taken.head?, ¬ ['/', '/'] <+: t.text := by
  rw [memberFront, run_peek_bind] at h
  split at h
  · simp at h
  · obtain ⟨t, r, -, -, h⟩ := run_token_bind_eq_ok.mp h
    rw [run_peek_bind] at h
    split at h
    · simp at h
    · exact methodFront_last h
  · exact methodFront_last h

theorem itemFront_last {f : Front} (h : (itemFront n).run s = .ok (f, s')) :
    f.head.toList = s'.textFrom s.taken.length ∧ ∀ t ∈ s'.taken.head?, ¬ ['/', '/'] <+: t.text := by
  rw [itemFront, run_peek_bind] at h
  split at h
  · simp at h
  · rw [run_mark_bind] at h
    obtain ⟨t, r, -, h⟩ := run_shift_bind_eq_ok.mp h
    rw [run_peek_bind] at h
    split at h
    · obtain ⟨⟨⟩, s₁, -, h⟩ := run_bind_eq_ok.mp h
      exact memberFront_last h
    · exact memberFront_last h
  · rw [run_mark_bind] at h
    exact memberFront_last h

/-- A group ends with the bracket that closes it. -/
theorem group_last (h : (group n).run s = .ok ((), s')) : s'.expected = Expected.anything ∧
    ∀ t ∈ s'.taken.head?, ¬ ['/', '/'] <+: t.text := by
  cases n with
  | zero => simp [group] at h
  | succ n =>
    rw [group, run_peek_bind] at h
    cases hclose : closer? s.next.kind with
    | none => simp [hclose] at h
    | some close =>
      rw [hclose] at h
      obtain ⟨t, r, -, h⟩ := run_shift_bind_eq_ok.mp h
      obtain ⟨⟨⟩, s₁, -, h⟩ := run_bind_eq_ok.mp h
      obtain ⟨u, r', hnext, hu, h⟩ := run_token_bind_eq_ok.mp h
      obtain ⟨-, rfl⟩ := Prod.mk.inj (Except.ok.inj h)
      refine ⟨rfl, fun v hv => ?_⟩
      obtain rfl : u = v := by simpa using hv
      refine not_slashes_of_token hnext ?_
      rw [hu]
      revert hclose
      cases s.next.kind <;> simp [closer?] <;> rintro rfl <;> decide

/-- Where an item may start. -/
def itemPlaces : List Expectation :=
  [Expected.body, Expected.afterItem, Expected.anything, Expected.afterAttribute]

/-- In front of what follows a parameter list. -/
def FollowsParams (z : List Char) : Prop :=
  ∀ c ∈ z.head?, c ∈ [' ', '\n', ';']

end Grammar

open Grammar

/-- The texts of a method are read wherever they are quoted, and `e'` is expected behind it. -/
structure Method.Quoted (m : Method σ) (e' : Expectation) : Prop where
  front : Quotes itemFront (fun f => m.name = f.name ∧ m.head = f.head) methodKeywords
    (· ∈ itemPlaces) m.head.toList Expected.afterMethodName fun z => ∃ c ∈ ['<', '('],
      z.head? = some c
  opened : m.params.toList.head? = some '('
  params : Quotes paramText (m.params = ·) [.lpar] (fun e => finds e .lpar = true) m.params.toList
    Expected.anything FollowsParams
  ret : ∀ w ∈ m.ret, w ≠ "" ∧ Quotes returnText (some w = ·) [.arrow]
    (· = Expected.anything) w.toList Expected.afterType fun z => FollowsParams z ∧
    (Next.of Expected.afterType z).kind ∈ behindType
  body : m.body = ";" ∧ e' = Expected.afterItem ∨
    Terminal.lbrace.spelling <+: m.body.toList ∧ e' = Expected.anything ∧
    Quotes methodBody (m.body = ·) [.lbrace]
      (fun e => finds e .lbrace = true) m.body.toList Expected.anything fun z => z.head? = some '\n'

namespace Grammar

theorem front_quotes {f : Front} (h : (itemFront n).run s = .ok (f, s₁))
    (hn : 16 * s.rest.length + 1 ≤ n) (hs : Shuts s₁.rest) (he : s.expected ∈ itemPlaces) :
    Quotes itemFront
      (fun f' => f.name = f'.name ∧ f.head = f'.head) methodKeywords
      (· ∈ itemPlaces) f.head.toList Expected.afterMethodName fun z => ∃ c ∈ ['<', '('],
        z.head? = some c := by
  have hplaces : ∀ e ∈ itemPlaces, .ident ∈ e ∧ ∀ κ ∈ methodKeywords, κ ∈ e := by decide
  have hcloses : Closes [Expected.afterMethodName] [] false (itemFront n) := closes_itemFront n
  have hlt := (itemFront_alike (N := Offset s.taken.length 0) (e := s.expected)
    (κ := none) hn hn).lt_of_closes hcloses ⟨0, rfl, rfl⟩ h
  have he₁ : s₁.expected = Expected.afterMethodName := by
    simpa using hcloses.expected_mem (by simp) h
  obtain ⟨hhead, hline⟩ := itemFront_last h
  rw [hhead, ← he₁]
  refine quotes_of_run h hlt
    ((eventually_ge_atTop _).mono fun m hm N => itemFront_alike hn hm) hs ?_
    (itemFront_starts h) ?_
  · -- Neither `<` nor `(` can be read into the name.
    rintro z ⟨c, hc, hz⟩
    refine ⟨?_, .inr hline, _, [s₁.next.kind, (Next.of s₁.expected z).kind], _, closes_itemFront,
      by simp, by simp⟩
    intro d hd
    obtain rfl : c = d := Option.some.inj (hz.symm.trans hd)
    simp only [List.mem_cons, List.not_mem_nil, or_false] at hc
    rcases hc with rfl | rfl <;> decide
  · intro e he' t rest hnext
    have ht := itemFront_starts h
    rw [kind_of_token hnext] at ht
    exact Token.moves_keyword ht (hplaces _ he).1 ((hplaces e he').2 _ ht) (hplaces e he').1

theorem FollowsParams.parting (hz : FollowsParams z) : Parting z := by
  intro c hc
  have hc := hz c hc
  simp only [List.mem_cons, List.not_mem_nil, or_false] at hc
  rcases hc with rfl | rfl | rfl <;> decide

theorem textOfGroup_last {w : String}
    (h : (do let first ← mark
             group n
             textFrom first).run s = .ok (w, s')) : s'.expected = Expected.anything ∧
      ∀ t ∈ s'.taken.head?, ¬ ['/', '/'] <+: t.text := by
  rw [run_mark_bind] at h
  obtain ⟨⟨⟩, s₁, hgroup, h⟩ := run_bind_eq_ok.mp h
  obtain ⟨-, rfl⟩ : String.ofList (s₁.textFrom s.taken.length) = w ∧ s₁ = s' := by
    simpa [textFrom, Reading.run] using h
  exact group_last hgroup

theorem Written.textFrom_eq {first : Nat} {w : String} (h : Written first s w) :
    w.toList = s.textFrom first := by
  rw [h.text, Scan.textFrom_eq]

/-- A text starts with the letters of its first token. -/
theorem Written.spelling_prefix {w : String} {κ : Terminal} (h : Written s.taken.length s₁ w)
    (hreach : s.Reaches s₁) (hkind : s.next.kind = κ) (hspelling : κ.spelling ≠ []) :
    κ.spelling <+: w.toList := by
  cases hreach with
  | refl => exact absurd h.lt (Nat.lt_irrefl _)
  | @step _ _ t r _ hnext hreach =>
    obtain ⟨us, -, htext⟩ := Scan.textFrom_next hnext hreach
    rw [kind_of_token hnext] at hkind
    subst hkind
    rw [h.textFrom_eq, htext,
      Next.text_of_token hnext (Terminal.spelling_ne_nil_iff.mp hspelling)]
    exact List.prefix_append _ _

theorem closes_paramText (n : Nat) : Closes behindItem ends false (paramText n) := by
  rw [paramText]
  refine .after peek fun t => ?_
  split
  · exact .after mark fun first => .bind (closes_group n) fun _ => .textFrom first
  · exact .refuse

theorem params_quotes {w : String} (h : (paramText n).run s = .ok (w, s₁))
    (hn : 16 * s.rest.length + 1 ≤ n) (hs : Shuts s₁.rest) :
    s₁.expected = Expected.anything ∧ w.toList.head? = some '(' ∧
      Quotes paramText (w = ·) [.lpar] (fun e => finds e .lpar = true) w.toList Expected.anything
        FollowsParams := by
  have hwritten := paramText_written h
  obtain ⟨hkind, he, hline⟩ : s.next.kind = .lpar ∧ s₁.expected = Expected.anything ∧
      ∀ t ∈ s₁.taken.head?, ¬ ['/', '/'] <+: t.text := by
    rw [paramText, run_peek_bind] at h
    split at h
    · exact ⟨‹_›, textOfGroup_last h⟩
    · simp at h
  refine ⟨he, ?_, ?_⟩
  · obtain ⟨r, hr⟩ := hwritten.spelling_prefix (Scan.reaches_of_run h) hkind (by decide)
    rw [← hr]
    rfl
  · rw [hwritten.textFrom_eq, ← he]
    refine quotes_of_run h hwritten.lt ((eventually_ge_atTop _).mono fun m hm N =>
      (paramText_alike hn hm).mono fun _ _ _ _ _ h => h.2) hs ?_ (by simp [hkind]) ?_
    · -- Nothing can be read into a closing bracket.
      intro z hz
      exact ⟨hz.parting, .inr hline, _, [s₁.next.kind, (Next.of s₁.expected z).kind], _,
        closes_paramText, by simp, by simp⟩
    · intro e he t rest hnext
      rw [kind_of_token hnext] at hkind
      exact Token.moves_symbol (by rw [hkind]; decide) (by rw [hkind]; exact he)

theorem closes_returnText (n : Nat) :
    Closes [Expected.afterType] behindType true (returnText n) := by
  rw [returnText]
  refine .glance_bind (fun t ht t' ht' => ?_) fun t => ?_
  · have hne : ∀ t ∈ behindType, t ≠ .arrow := by decide
    rw [if_neg (hne t ht), if_neg (hne t' ht')]
  · split
    · refine .after mark fun first => .after (shift _) fun _ => ?_
      exact ((TypesClose.all n).ty.bind fun _ => .bind (.textFrom first) fun _ => .done).anywhere
    · exact .done

theorem ret_quotes {w : String} (h : (returnText n).run s = .ok (some w, s₁))
    (hn : 16 * s.rest.length + 1 ≤ n) (hs : Shuts s₁.rest) (he : s.expected = Expected.anything)
    (hend : s₁.next.kind ∈ behindType) : s₁.expected = Expected.afterType ∧ w ≠ "" ∧
      Quotes returnText (some w = ·) [.arrow] (· = Expected.anything) w.toList Expected.afterType
        fun z => FollowsParams z ∧ (Next.of Expected.afterType z).kind ∈ behindType := by
  have hwritten := returnText_written h rfl
  obtain ⟨hkind, he₁⟩ : s.next.kind = .arrow ∧ s₁.expected = Expected.afterType := by
    rw [returnText, run_peek_bind] at h
    split at h
    · rw [run_mark_bind] at h
      obtain ⟨t, r, -, h⟩ := run_shift_bind_eq_ok.mp h
      obtain ⟨type, s₂, htype, h⟩ := run_bind_eq_ok.mp h
      rw [run_textFrom_bind, run_pure] at h
      obtain ⟨-, rfl⟩ := Prod.mk.inj (Except.ok.inj h)
      exact ⟨‹_›, by simpa using (TypesClose.all n).ty.expected_mem (by simp) htype⟩
    · simp at h
  refine ⟨he₁, ?_, ?_⟩
  · obtain ⟨r, hr⟩ := hwritten.spelling_prefix (Scan.reaches_of_run h) hkind (by decide)
    rintro rfl
    simp [Terminal.spelling] at hr
  · rw [hwritten.textFrom_eq, ← he₁]
    refine quotes_of_run h hwritten.lt
      ((eventually_ge_atTop _).mono fun m hm N => returnText_alike hn hm) hs
      ?_ (by simp [hkind]) ?_
    · rw [he₁]
      rintro z ⟨hz, hz'⟩
      -- A type does not end in the rest of a line.
      refine ⟨hz.parting, .inr ?_, _, behindType, _, closes_returnText, hend, hz'⟩
      exact (returnText_obeys n).not_slashes h hwritten.lt (by rw [he₁]; decide)
    · rintro _ rfl t rest -
      rw [he]
      exact t.moves_refl _

theorem body_quotes {w : String} (h : (methodBody n).run s = .ok (w, s₁))
    (hn : 16 * s.rest.length + 1 ≤ n) (hs : Shuts s₁.rest) :
    w = ";" ∧ s₁.expected = Expected.afterItem ∨
      Terminal.lbrace.spelling <+: w.toList ∧ s₁.expected = Expected.anything ∧
      Quotes methodBody (w = ·) [.lbrace]
        (fun e => finds e .lbrace = true) w.toList Expected.anything fun z =>
          z.head? = some '\n' := by
  have hwritten := methodBody_written h
  -- A body is the semicolon or a group.
  by_cases hsemi : s.next.kind = .semi
  · left
    rw [methodBody, run_peek_bind, hsemi] at h
    simp only [shift, Reading.run] at h
    split at h
    · rename_i t r hnext
      obtain ⟨rfl, rfl⟩ := Prod.mk.inj (Except.ok.inj h)
      rw [kind_of_token hnext] at hsemi
      rw [Next.text_of_token hnext (by rw [hsemi]; decide), hsemi]
      exact ⟨rfl, rfl⟩
    · simp at h
  · right
    obtain ⟨hkind, he⟩ : s.next.kind = .lbrace ∧ s₁.expected = Expected.anything := by
      rw [methodBody, run_peek_bind] at h
      split at h
      · contradiction
      · exact ⟨‹_›, (textOfGroup_last h).1⟩
      · simp at h
    refine ⟨hwritten.spelling_prefix (Scan.reaches_of_run h) hkind (by decide), he, ?_⟩
    · rw [hwritten.textFrom_eq, ← he]
      refine quotes_of_run h hwritten.lt ((eventually_ge_atTop _).mono fun m hm N =>
        (methodBody_alike hn hm).mono fun _ _ _ _ _ h => h.2) hs ?_ (by simp [hkind]) ?_
      · intro z hz
        exact ⟨parting_of_line hz, .inl hz, _, [s₁.next.kind, (Next.of s₁.expected z).kind], _,
          fun n => (closes_methodBody n : Closes _ _ false _), by simp, by simp⟩
      · intro e he t rest hnext
        rw [kind_of_token hnext] at hkind
        exact Token.moves_symbol (by rw [hkind]; decide) (by rw [hkind]; exact he)

theorem methodBody_starts {w : String} (h : (methodBody n).run s = .ok (w, s')) :
    s.next.kind ∈ [Terminal.lbrace, .semi] := by
  rw [methodBody, run_peek_bind] at h
  split at h
  · rename_i hkind
    simp [hkind]
  · rename_i hkind
    simp [hkind]
  · simp at h

/-- A where clause starts with its keyword, or what is behind it does. -/
theorem whereClause_starts {clause : Option (List Predicate)}
    (h : (whereClause n).run s = .ok (clause, s₁)) : s.next.kind = .kwWhere ∨ s₁ = s := by
  rw [whereClause] at h
  rcases run_optional_bind_eq_ok.mp h with ⟨t, r, hnext, ht, -⟩ | ⟨-, h⟩
  · exact .inl (by rw [kind_of_token hnext, ht])
  · exact .inr (by simpa [eq_comm] using (Prod.mk.inj (Except.ok.inj h)).2)

theorem method_quoted {m : Method Extent} (h : (item as n).run s = .ok (.method m, s₁))
    (hn : 16 * s.rest.length + 1 ≤ n) (hs : Shuts s₁.rest) (he : s.expected ∈ itemPlaces) :
    m.attrs = as ∧ m.Quoted s₁.expected ∧ m.generics.Closed := by
  obtain ⟨m₀, s₂, hhead, hrest⟩ := item_iff.mp h
  obtain ⟨body, hbody, hm⟩ := bodyOf_eq_ok.mp hrest
  rw [itemHead_eq] at hhead
  obtain ⟨f, s₃, hfront, hhead⟩ := run_bind_eq_ok.mp hhead
  rw [signatureRest] at hhead
  obtain ⟨ps, s₄, hps, hhead⟩ := run_bind_eq_ok.mp hhead
  obtain ⟨params, s₅, hparams, hhead⟩ := run_bind_eq_ok.mp hhead
  obtain ⟨ret, s₆, hret, hhead⟩ := run_bind_eq_ok.mp hhead
  obtain ⟨clause, s₇, hclause, hhead⟩ := run_bind_eq_ok.mp hhead
  obtain ⟨rfl, rfl⟩ := of_run_pure hhead
  obtain rfl : m = _ := Item.method.inj hm
  -- Each part begins in what the one in front of it has left.
  have h₃ := (Scan.reaches_of_run hfront).rest_suffix
  have h₄ := (Scan.reaches_of_run hps).rest_suffix
  have h₅ := (Scan.reaches_of_run hparams).rest_suffix
  have h₆ := (Scan.reaches_of_run hret).rest_suffix
  have h₇ := (Scan.reaches_of_run hclause).rest_suffix
  have hs₇ := hs.of_suffix (Scan.reaches_of_run hbody).rest_suffix
  have hs₆ := hs₇.of_suffix h₇
  have hs₅ := hs₆.of_suffix h₆
  have hs₄ := hs₅.of_suffix h₅
  obtain ⟨hany, hopened, hparamText⟩ := params_quotes hparams
    (by have := h₃.length_le; have := h₄.length_le; omega) hs₅
  refine ⟨rfl, ⟨front_quotes hfront hn (hs₄.of_suffix h₄) he, hopened, hparamText, ?_, ?_⟩, ?_⟩
  · intro w hw
    obtain rfl : ret = some w := hw
    have hend : s₆.next.kind ∈ behindType := by
      rcases whereClause_starts hclause with hkind | rfl
      · simp [hkind, behindType]
      · have hall : ∀ κ ∈ [Terminal.lbrace, .semi], κ ∈ behindType := by decide
        exact hall _ (methodBody_starts hbody)
    exact (ret_quotes hret
      (by have := h₃.length_le; have := h₄.length_le; have := h₅.length_le; omega) hs₆
      hany hend).2
  · refine body_quotes hbody ?_ hs
    have := h₃.length_le
    have := h₄.length_le
    have := h₅.length_le
    have := h₆.length_le
    have := h₇.length_le
    omega
  · exact generics_closed hps
      ((Scan.reaches_of_run hparams).trans (Scan.reaches_of_run hret)) hclause hs₇

end Grammar

/-- Behind its attributes, where `e` is expected, the item is read from the text `w`, and then
`e'` is expected. -/
def Item.ReadFrom (i : Item σ) (w : List Char) (e e' : Expectation) : Prop :=
  Quotes (item []) (fun j => (i.withAttrs []).unplaced = j.unplaced) itemStarts (· = e) w e'
    fun z => z.head? = some '\n' ∧ (Next.of e' z).kind ≠ .semi

theorem Item.withAttrs_withAttrs (i : Item σ) (attrs attrs' : List (Attribute σ)) :
    (i.withAttrs attrs).withAttrs attrs' = i.withAttrs attrs' := by
  cases i <;> rfl

namespace Grammar

theorem item_run_withAttrs (h : (item as n).run s = .ok (i, s')) :
    i = i.withAttrs as ∧ (item [] n).run s = .ok (i.withAttrs [], s') := by
  have hrun : ∀ attrs, (item attrs n).run s = .ok (i.withAttrs attrs, s') := by
    intro attrs
    rw [item_withAttrs] at h ⊢
    obtain ⟨j, s₁, hj, h⟩ := run_bind_eq_ok.mp h
    obtain ⟨rfl, rfl⟩ := of_run_pure h
    exact run_bind_eq_ok.mpr ⟨j, s₁, hj, by rw [Item.withAttrs_withAttrs]; rfl⟩
  exact ⟨(Prod.mk.inj (Except.ok.inj (h.symm.trans (hrun as)))).1, hrun []⟩

theorem verbatim_readFrom {v : VerbatimItem Extent} (h : (item as n).run s = .ok (.verbatim v, s₁))
    (hn : 16 * s.rest.length + 1 ≤ n) (hs : Shuts s₁.rest) (hend : s₁.next.kind ≠ .semi) :
    v.attrs = as ∧ (Item.verbatim v).ReadFrom v.text.toList s.expected s₁.expected := by
  obtain ⟨hattrs, hrun⟩ := item_run_withAttrs h
  have hsited := item_sited h
  have htext : v.text.toList = s₁.textFrom s.taken.length := by
    cases hsited.placed with
    | verbatim _ htext =>
      rw [htext, Scan.textFrom_eq]
      exact congrArg (Extent.text _) hsited.place
  -- The item is read again without its attributes, which are read before.
  have halike : ∀ m ≥ 16 * s.rest.length + 1, ∀ N, Alike anyTable N
      (fun _ _ (i j : Item Extent) => i.unplaced = j.unplaced) s.rest.length s.expected none
        (item [] n)
      (item [] m) :=
    fun m hm N => (item_alike .nil hn hm).mono fun _ _ _ _ _ hij => hij.2.unplaced_eq
  have hlt := (halike n hn (Offset s.taken.length 0)).lt_of_closes
    (closes_item (by simp) n : Closes _ [] _ _) ⟨0, rfl, rfl⟩ hrun
  refine ⟨congrArg VerbatimItem.attrs (Item.verbatim.inj hattrs), ?_⟩
  rw [htext]
  refine quotes_of_run hrun hlt ((eventually_ge_atTop _).mono halike) hs ?_ (item_starts h) ?_
  · rintro z ⟨hz, hz'⟩
    refine ⟨parting_of_line hz, .inl hz, _, [s₁.next.kind, (Next.of s₁.expected z).kind], _,
      fun n => (closes_item ?_ n : Closes _ _ false _), by simp, by simp⟩
    simpa using ⟨hend.symm, hz'.symm⟩
  · rintro _ rfl t rest -
    exact t.moves_refl _

theorem item_readsAs_of_head {P : Item Extent → Prop} {x : List Char}
    (h : (itemHead as n >>= fun m => bodyOf m n).ReadsAs P e x e' z) :
    (item as n).ReadsAs P e x e' z := by
  intro taken
  obtain ⟨i, taken', hi, hrun⟩ := h taken
  obtain ⟨m₀, s₁, hhead, hrest⟩ := run_bind_eq_ok.mp hrun
  obtain ⟨body, -, rfl⟩ := bodyOf_eq_ok.mp hrest
  exact ⟨_, taken', hi, item_iff.mpr ⟨m₀, s₁, hhead, hrest⟩⟩

end Grammar

/-! ## Printed methods -/

namespace Method

/-- The arrow and the type of a method, behind its parameters. -/
def retChars : Option String → List Char
  | none => []
  | some w => ' ' :: w.toList

/-- A method without its attributes. -/
def chars (m : Method σ) (indent : String) : List Char :=
  m.head.toList ++ (m.generics.printParams.toList ++ (m.params.toList ++ (retChars m.ret ++
    (m.ending indent).toList)))

/-- The generics of the method are read as they are printed. -/
structure Scoped (m : Method σ) : Prop where
  params : ∀ p ∈ m.generics.params, ∀ z, ParamEnds z → ParamRead p z
  clausal : Clausal m.generics.clause
  uncut : ∀ p ∈ m.generics.predicates, Text.Uncut p.print

namespace Quoted

variable {m : Method σ} {indent : String}

/-- The where clause and the body. -/
theorem ending_readsAs (h : m.Quoted e') (hm : m.Scoped) (he : e ∈ clausePlaces)
    (hindent : IsLayout indent.toList) (hz : z.head? = some '\n') :
    ∃ e₁ y, (∀ᶠ n in atTop, (whereClause n).Reads e
      ((m.ending indent).toList ++ z) m.generics.clause e₁ y) ∧
      ∀ᶠ n in atTop, (methodBody n).ReadsAs (m.body = ·) e₁ y e' z := by
  rcases h.body with ⟨hbody, rfl⟩ | ⟨⟨r, hr⟩, rfl, hquotes⟩
  · obtain ⟨e₁, hsemi, hreads⟩ := whereClause_reads_semi (z := z) hm.clausal hm.uncut he hindent
    refine ⟨e₁, Terminal.semi.spelling ++ z, ?_, .of_forall fun n => ?_⟩
    · rw [ending, if_pos hbody]
      simpa [Terminal.spelling] using hreads
    · rw [hbody, methodBody]
      refine .peek (κ := .semi) (by rw [of_symbol_front hsemi, Next.kind]) fun taken => ?_
      refine ⟨_, ⟨.semi, [], Terminal.semi.spelling⟩ :: taken, rfl, ?_⟩
      simp only [shift, Reading.run, Scan.next, of_symbol_front hsemi]
      rfl
  · obtain ⟨e₁, g, hbrace, hg, hreads⟩ := whereClause_reads_brace
      (z := r ++ z) hm.clausal he hindent
    refine ⟨e₁, g ++ (m.body.toList ++ z), ?_, (hquotes e₁ hbrace g hg z hz).2⟩
    -- The body is a group, so the clause is printed as in front of a brace.
    have hne : m.body ≠ ";" := by
      intro hsemi
      rw [hsemi] at hr
      simp [Terminal.spelling] at hr
    have htext : (m.ending indent).toList ++ z =
      (if printClause m.generics.clause indent = "" then [' '] else
        (printClause m.generics.clause indent).toList ++ indent.toList) ++
          (Terminal.lbrace.spelling ++ (r ++ z)) := by
      rw [ending, if_neg hne, ← List.append_assoc _ r, hr]
      split <;> simp
    rw [htext, ← hr, List.append_assoc]
    exact hreads

/-- What stands behind the parameters and the type that is returned. -/
theorem ending_front (h : m.Quoted e') (hm : m.Scoped) (he : e ∈ clausePlaces)
    (hindent : IsLayout indent.toList) : FollowsParams ((m.ending indent).toList ++ z) ∧
      (Next.of e ((m.ending indent).toList ++ z)).kind ∈ [Terminal.kwWhere, .lbrace, .semi] := by
  obtain ⟨hbrace, hsemi⟩ := finds_clause e (List.mem_cons_of_mem _ he)
  -- A clause goes on a line of its own.
  cases hclause : m.generics.clause with
  | none =>
    have hprint : printClause m.generics.clause indent = "" := by
      rw [hclause]
      rfl
    rcases h.body with ⟨hbody, -⟩ | ⟨⟨r, hr⟩, -⟩
    · have htext : (m.ending indent).toList ++ z = Terminal.semi.spelling ++ z := by
        rw [ending, if_pos hbody, hprint]
        rfl
      rw [htext, of_symbol_front hsemi]
      simp [FollowsParams, Terminal.spelling, Next.kind]
    · have hne : m.body ≠ ";" := by
        intro hsemi
        rw [hsemi] at hr
        simp [Terminal.spelling] at hr
      have htext : (m.ending indent).toList ++ z = [' '] ++
          (Terminal.lbrace.spelling ++ (r ++ z)) := by
        rw [ending, if_neg hne, if_pos hprint, ← List.append_assoc _ r, hr]
        simp
      rw [htext, of_symbol hbrace isLayout_space]
      simp [FollowsParams, Next.kind]
  | some ps =>
    have hne : ps ≠ [] := fun hps => hm.clausal.1 (by rw [hclause, hps])
    have huncut : ∀ p ∈ ps, Text.Uncut p.print := by
      simpa [Generics.predicates, hclause] using hm.uncut
    obtain ⟨x, htext⟩ : ∃ x, (m.ending indent).toList ++ z =
        '\n' :: indent.toList ++ (Terminal.kwWhere.spelling ++ '\n' :: x) := by
      rw [ending, hclause]
      split
      · rw [String.toList_append, withoutLastComma_toList hne huncut]
        exact ⟨_, by simp; rfl⟩
      · have htoList := printClause_toList hne indent
        have hempty : printClause (some ps) indent ≠ "" := by
          intro hprint
          rw [hprint] at htoList
          simp at htoList
        rw [if_neg hempty, String.toList_append, String.toList_append, htoList]
        exact ⟨_, by simp; rfl⟩
    rw [htext, of_where he (isLayout_line hindent) (by simp [Breaks, isBreak])]
    simp [FollowsParams, Next.kind]

/-- What is returned, in front of the where clause and the body. -/
theorem ret_readsAs (h : m.Quoted e') (hm : m.Scoped) (hindent : IsLayout indent.toList) :
    FollowsParams (retChars m.ret ++ ((m.ending indent).toList ++ z)) ∧ ∃ e₁ ∈ clausePlaces,
      ∀ᶠ n in atTop, (returnText n).ReadsAs (m.ret = ·) Expected.anything
        (retChars m.ret ++ ((m.ending indent).toList ++ z)) e₁ ((m.ending indent).toList ++ z) := by
  have hfront : ∀ e ∈ clausePlaces, FollowsParams ((m.ending indent).toList ++ z) ∧
      (Next.of e ((m.ending indent).toList ++ z)).kind ∈ [Terminal.kwWhere, .lbrace, .semi] :=
    fun e he => h.ending_front hm he hindent
  cases hret : m.ret with
  | none =>
    obtain ⟨hfollows, hkind⟩ := hfront Expected.anything (by decide)
    refine ⟨hfollows, Expected.anything, by decide, .of_forall fun n => ?_⟩
    rw [retChars, List.nil_append, returnText]
    refine .peek rfl ?_
    rw [if_neg (ne_of_mem_of_not_mem hkind (by decide))]
    exact .pure rfl
  | some w =>
    obtain ⟨hfollows, hkind⟩ := hfront Expected.afterType (by decide)
    have hall : ∀ κ ∈ [Terminal.kwWhere, .lbrace, .semi], κ ∈ behindType := by decide
    obtain ⟨-, hquotes⟩ := h.ret w hret
    have hreads := (hquotes _ rfl [' '] isLayout_space _ ⟨hfollows, hall _ hkind⟩).2
    refine ⟨?_, Expected.afterType, by decide, ?_⟩
    · simp [FollowsParams, retChars]
    · simpa [retChars] using hreads

/-- An angle bracket or a parenthesis stands behind the name. -/
theorem printed_opened (h : m.Quoted e') :
    ∃ c ∈ ['<', '('], (m.generics.printParams.toList ++ (m.params.toList ++ z)).head? = some c := by
  cases hps : m.generics.params with
  | nil =>
    refine ⟨'(', by simp, ?_⟩
    rw [Generics.printParams, hps]
    simp [printParamList, h.opened]
  | cons p ps =>
    refine ⟨'<', by simp, ?_⟩
    rw [Generics.printParams, hps]
    simp [printParamList]

/-- A method that is written from its parts is read as what it is. -/
theorem readFrom (h : m.Quoted e') (hm : m.Scoped) (he : e ∈ itemPlaces)
    (hindent : IsLayout indent.toList) : (Item.method m).ReadFrom (m.chars indent) e e' := by
  rintro _ rfl g hg z ⟨hz, -⟩
  obtain ⟨hfollows, e₂, he₂, hret⟩ := h.ret_readsAs (z := z) hm hindent
  obtain ⟨e₃, y, hclause, hbody⟩ := h.ending_readsAs hm he₂ hindent hz
  have hopen := h.params Expected.afterMethodName (by decide) [] isLayout_nil _ hfollows
  have hlist := params_reads hm.params (e := Expected.afterMethodName) (by decide) fun _ => by
    have hkind := hopen.1
    simp only [List.nil_append, List.mem_singleton] at hkind
    rw [hkind]
    decide
  -- Behind the generic parameters other tokens may follow than behind the name.
  have hparams := h.params
    (if m.generics.params = [] then Expected.afterMethodName else Expected.afterParams)
    (by split <;> decide) [] isLayout_nil _ hfollows
  obtain ⟨hkind, hfront⟩ := h.front _ he g hg (m.generics.printParams.toList ++ (m.params.toList ++
    (retChars m.ret ++ ((m.ending indent).toList ++ z)))) h.printed_opened
  have htext : g ++ (m.chars indent ++ z) = g ++ (m.head.toList ++ (m.generics.printParams.toList ++
      (m.params.toList ++ (retChars m.ret ++ ((m.ending indent).toList ++ z))))) := by
    simp [chars]
  rw [htext]
  refine ⟨List.mem_cons_of_mem _ (List.mem_cons_of_mem _ hkind), ?_⟩
  filter_upwards [hfront, hlist, hparams.2, hret,
    hclause, hbody] with n hfront hlist hparams hret hclause hbody
  refine item_readsAs_of_head ?_
  rw [itemHead_eq, Reading.bind_assoc]
  refine hfront.bind fun f hf => ?_
  simp only [signatureRest, Reading.bind_assoc]
  refine Reads.bind_readsAs hlist (hparams.bind fun params hparams => hret.bind fun ret hret => ?_)
  refine Reads.bind_readsAs hclause (hbody.bind fun body hbody => .mark fun last => .pure ?_)
  obtain ⟨hname, hhead⟩ := hf
  rw [Item.withAttrs, hname, hhead, hparams, hret, hbody]
  rfl

end Quoted
end Method
end ShadowImpl
