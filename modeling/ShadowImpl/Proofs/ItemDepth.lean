import ShadowImpl.Proofs.Depth

/-!
# The bound on the depth, for attributes and items

Attributes and items remember places as numbers of tokens, so two readings of them yield trees that
are the same except for places that are related.
-/

namespace ShadowImpl.Grammar

open Reading

variable {N : Nat → Nat → Prop}

/-! ## Meta items -/

/-- Names with `::` between them take a token for each step they go down. -/
theorem metaNames_steady (n : Nat) : Steady N 1 metaNames n := by
  induction n with
  | zero => exact .zero (by omega)
  | succ n ih =>
    intro m L e κ hn hm
    obtain ⟨m, rfl⟩ : ∃ j, m = j + 1 := ⟨m - 1, by omega⟩
    have hmore : ∀ {j e' κ'}, j < L → Alike Follows N (fun _ _ a b => a = b) j e' κ'
        (do if ← Reading.optional .pathSep Expected.metaName then metaNames n)
        (do if ← Reading.optional .pathSep Expected.metaName then metaNames m) := by
      intro j e' κ' hj
      refine Alike.optional_bind (.inr rfl) (fun i hi => ?_) fun _ => Alike.pure rfl
      exact ih m i _ _ (by omega) (by omega)
    rw [metaNames, metaNames]
    refine Alike.peek_bind fun t => ?_
    split
    · exact Alike.shift_bind (.inr rfl) fun j hj _ => hmore (by omega)
    · exact Alike.shift_bind (.inr rfl) fun j hj _ => hmore (by omega)
    · exact .refuse

theorem metaPath_steady (n : Nat) : Steady N 1 metaPath n := by
  intro m L e κ hn hm
  rw [metaPath, metaPath]
  refine Alike.mark_bind fun i j hij => ?_
  refine Alike.optional_bind_same (.inr rfl) fun i₁ _ _ _ hi₁ => ?_
  refine (metaNames_steady n).bind (by omega) (by omega) fun i₂ _ _ _ hi₂ => ?_
  exact Alike.textFrom_bind hij fun _ => Alike.pure rfl

/-- The arguments of a meta item are a group, of which the place is kept. -/
theorem metaForm_alike {n m L : Nat} {e : Expectation} {κ : Option Terminal}
    (hn : 16 * L + 1 ≤ n) (hm : 16 * L + 1 ≤ m) :
    Alike Follows N (fun _ _ a b => MetaForm.Related (Extent.Related N) a b) L e κ
      (metaForm n) (metaForm m) := by
  -- The three brackets are read alike.
  have hlist : ∀ κ', Alike Follows N (fun _ _ a b => MetaForm.Related (Extent.Related N) a b) L e κ'
      (do let first ← mark
          group n
          return .list (inside (← textFrom first)) ⟨first, ← mark⟩)
      (do let first ← mark
          group m
          return .list (inside (← textFrom first)) ⟨first, ← mark⟩) := by
    intro κ'
    refine Alike.mark_bind fun i j hij => ?_
    refine ((group_trees_alike n).1 m L e _ hn hm).bind fun _ _ _ _ _ _ _ => ?_
    refine Alike.textFrom_bind hij fun w => Alike.mark_bind fun i' j' hij' => ?_
    exact Alike.pure (.list ⟨hij, hij'⟩)
  rw [metaForm, metaForm]
  refine Alike.peek_bind fun t => ?_
  split
  · exact hlist _
  · exact hlist _
  · exact hlist _
  · refine Alike.shift_bind (.inr rfl) fun j hj _ => ?_
    exact (someTrees_alike (by omega) (by omega)).bind fun _ _ _ _ _ _ _ => Alike.pure .value
  · exact Alike.pure .word

theorem metaItem_alike {n m L : Nat} {e : Expectation} {κ : Option Terminal}
    (hn : 16 * L + 1 ≤ n) (hm : 16 * L + 1 ≤ m) :
    Alike Follows N (fun _ _ a b => Meta.Related (Extent.Related N) a b) L e κ
      (metaItem n) (metaItem m) := by
  rw [metaItem, metaItem]
  refine Alike.mark_bind fun i j hij => ?_
  refine (metaPath_steady n).bind hn hm fun i₁ _ _ path hi₁ => ?_
  refine (metaForm_alike (by omega) (by omega)).bind fun i₂ _ _ form form' hi₂ hform => ?_
  exact Alike.mark_bind fun i' j' hij' => Alike.pure ⟨rfl, hform, ⟨hij, hij'⟩⟩

/-! ## Attributes -/

/-- Any expectation may follow any token. -/
def anyTable (_ : Expectation) (_ : Terminal) (_ : Expectation) : Prop :=
  True

/-- Attributes that are the same except for their places. -/
abbrev SameAttribute (N : Nat → Nat → Prop) : Attribute Extent → Attribute Extent → Prop :=
  Attribute.Related (Extent.Related N)

/-- Items that are the same except for their places. -/
abbrev SameItem (N : Nat → Nat → Prop) : Item Extent → Item Extent → Prop :=
  Item.Related (Extent.Related N)

/-- An attribute in brackets, from where its `#` stands. -/
theorem bracketed_alike {style : AttrStyle} {after : Expectation} {first first' n m L : Nat}
    {e : Expectation} {κ : Option Terminal} (hfirst : N first first') (hn : 16 * L + 1 ≤ n)
    (hm : 16 * L + 1 ≤ m) :
    Alike anyTable N (fun _ _ a b => SameAttribute N a b) L e κ
      (bracketed style after first n) (bracketed style after first' m) := by
  rw [bracketed, bracketed]
  refine Alike.token_bind trivial fun j hj _ => ?_
  refine ((metaItem_alike (n := n) (m := m) (by omega) (by omega)).mono_table
    fun _ _ _ _ => trivial).bind fun i _ _ content content' hi hcontent => ?_
  refine Alike.token_bind trivial fun i' hi' _ => ?_
  refine Alike.textFrom_bind hfirst fun w => Alike.mark_bind fun a b hab => ?_
  exact Alike.pure ⟨rfl, .some hcontent, rfl, ⟨hfirst, hab⟩⟩

/-- Documentation is an attribute of one token. -/
theorem docAttribute_alike {style : AttrStyle} {after e : Expectation} {L : Nat} {t : Terminal} :
    Alike anyTable N (fun i _ a b => i < L ∧ SameAttribute N a b) L e (some t)
      (docAttribute style after) (docAttribute style after) := by
  rw [docAttribute]
  refine Alike.mark_bind fun i j hij => Alike.shift_bind trivial fun m hm w => ?_
  exact Alike.mark_bind fun i' j' hij' => Alike.pure ⟨by omega, rfl, .none, rfl, hij, hij'⟩

/-- Attributes one behind the other, as many as there are. -/
theorem attributes_alike (n : Nat) {m L : Nat} {e : Expectation} {κ : Option Terminal}
    (hn : 16 * L + 1 ≤ n) (hm : 16 * L + 1 ≤ m) :
    Alike anyTable N (fun _ _ as bs => List.Forall₂ (SameAttribute N) as bs) L e κ
      (attributes n) (attributes m) := by
  induction n generalizing m L e κ with
  | zero => omega
  | succ n ih =>
    obtain ⟨m, rfl⟩ : ∃ j, m = j + 1 := ⟨m - 1, by omega⟩
    have hmore : ∀ {i e' κ' a b}, i < L → SameAttribute N a b →
        Alike anyTable N (fun _ _ as bs => List.Forall₂ (SameAttribute N) as bs) i e' κ'
          (do return a :: (← attributes n)) (do return b :: (← attributes m)) := by
      intro i e' κ' a b hi hab
      refine (ih (m := m) (by omega) (by omega)).bind fun _ _ _ _ _ _ has => ?_
      exact Alike.pure (.cons hab has)
    rw [attributes, attributes]
    refine Alike.peek_bind fun t => ?_
    split
    · exact docAttribute_alike.bind fun i _ _ a b _ h => hmore h.1 h.2
    · refine Alike.mark_bind fun i j hij => Alike.shift_bind trivial fun L' hL' _ => ?_
      refine (bracketed_alike hij (by omega) (by omega)).bind fun i' _ _ a b hi' hab => ?_
      exact hmore (by omega) hab
    · exact Alike.pure .nil

/-- Inner attributes and the outer ones after them, the same except for their places. -/
abbrev SameBodyAttributes (N : Nat → Nat → Prop)
    (as bs : List (Attribute Extent) × List (Attribute Extent)) : Prop :=
  List.Forall₂ (SameAttribute N) as.1 bs.1 ∧ List.Forall₂ (SameAttribute N) as.2 bs.2

/-- Inner attributes and then the outer ones of the first item. -/
theorem bodyAttributes_alike (n : Nat) {m L : Nat} {e : Expectation} {κ : Option Terminal}
    (hn : 16 * L + 2 ≤ n) (hm : 16 * L + 2 ≤ m) :
    Alike anyTable N (fun _ _ as bs => SameBodyAttributes N as bs) L e κ
      (bodyAttributes n) (bodyAttributes m) := by
  induction n generalizing m L e κ with
  | zero => omega
  | succ n ih =>
    obtain ⟨m, rfl⟩ : ∃ j, m = j + 1 := ⟨m - 1, by omega⟩
    -- An attribute takes at least one token, which leaves depth enough for the others.
    have hinner : ∀ {i e' κ' a b}, i < L → SameAttribute N a b →
        Alike anyTable N (fun _ _ as bs => SameBodyAttributes N as bs) i e' κ'
          (bodyAttributes n >>= fun as => return (a :: as.1, as.2))
          (bodyAttributes m >>= fun as => return (b :: as.1, as.2)) := by
      intro i e' κ' a b hi hab
      refine (ih (m := m) (by omega) (by omega)).bind fun _ _ _ _ _ _ has => ?_
      exact Alike.pure ⟨.cons hab has.1, has.2⟩
    rw [bodyAttributes, bodyAttributes]
    refine Alike.peek_bind fun t => ?_
    split
    · exact docAttribute_alike.bind fun i _ _ a b _ h => hinner h.1 h.2
    · refine Alike.mark_bind fun i j hij => Alike.shift_bind trivial fun i₁ hi₁ _ => ?_
      refine Alike.optional_bind trivial (fun i₂ hi₂ => ?_) fun _ => ?_
      · refine (bracketed_alike hij (by omega) (by omega)).bind fun i' _ _ a b hi' hab => ?_
        exact hinner (by omega) hab
      · refine (bracketed_alike hij (by omega) (by omega)).bind fun i' _ _ a b hi' hab => ?_
        refine (attributes_alike n (by omega) (by omega)).bind fun _ _ _ _ _ _ has => ?_
        exact Alike.pure ⟨.nil, .cons hab has⟩
    · refine (attributes_alike n (by omega) (by omega)).bind fun _ _ _ _ _ _ has => ?_
      exact Alike.pure ⟨.nil, has⟩

/-! ## Items -/

/-- A steady reading in front of others, where it makes no difference what is expected after which
token. -/
theorem Steady.bind_any {α γ δ : Type} {c n m L : Nat} {e : Expectation} {κ : Option Terminal}
    {S : Nat → Expectation → γ → δ → Prop} {f : Nat → Reading α} {k : α → Reading γ}
    {k' : α → Reading δ} (h : Steady N c f n) (hn : 16 * L + c ≤ n) (hm : 16 * L + c ≤ m)
    (hk : ∀ i e' κ' a, i ≤ L → Alike anyTable N S i e' κ' (k a) (k' a)) :
    Alike anyTable N S L e κ (f n >>= k) (f m >>= k') :=
  ((h m L e κ hn hm).mono_table fun _ _ _ _ => trivial).bind fun i e' κ' a b hi hab => by
    subst hab
    exact hk i e' κ' a hi

/-- A group in front of other readings. -/
theorem group_bind_any {γ δ : Type} {n m L : Nat} {e : Expectation} {κ : Option Terminal}
    {S : Nat → Expectation → γ → δ → Prop} {k : Unit → Reading γ} {k' : Unit → Reading δ}
    (hn : 16 * L + 1 ≤ n) (hm : 16 * L + 1 ≤ m)
    (hk : ∀ i e' κ' a b, i < L → Alike anyTable N S i e' κ' (k a) (k' b)) :
    Alike anyTable N S L e κ (group n >>= k) (group m >>= k') :=
  (((group_trees_alike n).1 m L e κ hn hm).mono_table fun _ _ _ _ => trivial).bind
    fun i e' κ' a b _ h => hk i e' κ' a b h.1

section Items

variable {attrs attrs' : List (Attribute Extent)} {first first' n m L : Nat} {e : Expectation}
  {κ : Option Terminal}

/-- The tree of what follows a place where anything is expected. -/
theorem verbatimRest_alike {kind : ItemKind} (hattrs : List.Forall₂ (SameAttribute N) attrs attrs')
    (hfirst : N first first') (hn : 16 * L + 2 ≤ n) (hm : 16 * L + 2 ≤ m) :
    Alike anyTable N (fun i _ a b => i < L ∧ SameItem N a b) L Expected.anything κ
      (verbatimRest kind attrs first n) (verbatimRest kind attrs' first' m) := by
  rw [verbatimRest, verbatimRest]
  refine (((group_trees_alike n).2 _ m L κ hn hm).mono_table fun _ _ _ _ => trivial).bind
    fun i _ _ _ _ hi _ => ?_
  refine Alike.token_bind trivial fun j hj _ => ?_
  refine Alike.textFrom_bind hfirst fun w => Alike.mark_bind fun a b hab => ?_
  exact Alike.pure ⟨by omega, .verbatim ⟨rfl, hattrs, rfl, hfirst, hab⟩⟩

theorem macroPath_alike (n : Nat) {m L : Nat} {e : Expectation} {κ : Option Terminal}
    (hn : 16 * L + 1 ≤ n) (hm : 16 * L + 1 ≤ m) :
    Alike anyTable N (fun i _ _ _ => i < L) L e κ (macroPath n) (macroPath m) := by
  induction n generalizing m L e κ with
  | zero => omega
  | succ n ih =>
    obtain ⟨m, rfl⟩ : ∃ j, m = j + 1 := ⟨m - 1, by omega⟩
    rw [macroPath, macroPath]
    refine Alike.token_bind trivial fun j hj _ => ?_
    refine Alike.optional_bind trivial (fun i hi => ?_) fun _ => ?_
    · refine (ih (m := m) (by omega) (by omega)).mono fun _ _ _ _ _ h => ?_
      omega
    · exact Alike.token_bind trivial fun i hi _ => Alike.pure (by omega)

/-- A macro call is kept as it is written. -/
theorem macroCall_alike (hattrs : List.Forall₂ (SameAttribute N) attrs attrs')
    (hn : 16 * L + 1 ≤ n) (hm : 16 * L + 1 ≤ m) :
    Alike anyTable N (fun i _ a b => i < L ∧ SameItem N a b) L e κ
      (macroCall attrs n) (macroCall attrs' m) := by
  rw [macroCall, macroCall]
  refine Alike.mark_bind fun a b hab => ?_
  refine (macroPath_alike n hn hm).bind fun i₁ _ _ _ _ _ hi₁ => ?_
  refine group_bind_any (by omega) (by omega) fun i₂ _ _ _ _ hi₂ => ?_
  refine Alike.optional_bind_same trivial fun i₃ _ _ _ hi₃ => ?_
  refine Alike.textFrom_bind hab fun w => Alike.mark_bind fun a' b' hab' => ?_
  exact Alike.pure ⟨by omega, .verbatim ⟨rfl, hattrs, rfl, hab, hab'⟩⟩

theorem qualifiers_alike (n : Nat) {m L : Nat} {e : Expectation} {κ : Option Terminal}
    (hn : 16 * L + 1 ≤ n) (hm : 16 * L + 1 ≤ m) :
    Alike anyTable N (fun _ _ _ _ => True) L e κ (qualifiers n) (qualifiers m) := by
  induction n generalizing m L e κ with
  | zero => omega
  | succ n ih =>
    obtain ⟨m, rfl⟩ : ∃ j, m = j + 1 := ⟨m - 1, by omega⟩
    rw [qualifiers, qualifiers]
    refine Alike.peek_bind fun t => ?_
    split
    iterate 3 exact Alike.shift_bind trivial fun j hj _ => ih (by omega) (by omega)
    · refine Alike.shift_bind trivial fun j hj _ => ?_
      exact Alike.optional_bind_same trivial fun i _ _ _ hi => ih (by omega) (by omega)
    · exact Alike.pure trivial

/-- The text of a group depends on no number of tokens in front of it. -/
theorem textOfGroup_alike (hn : 16 * L + 1 ≤ n) (hm : 16 * L + 1 ≤ m) :
    Alike anyTable N (fun i _ a b => i < L ∧ a = b) L e κ
      (do let first ← mark
          group n
          textFrom first)
      (do let first ← mark
          group m
          textFrom first) := by
  refine Alike.mark_bind fun a b hab => group_bind_any hn hm fun i _ _ _ _ hi => ?_
  exact .text hab fun w => .done ⟨hi, rfl⟩

theorem paramText_alike (hn : 16 * L + 1 ≤ n) (hm : 16 * L + 1 ≤ m) :
    Alike anyTable N (fun i _ a b => i < L ∧ a = b) L e κ (paramText n) (paramText m) := by
  rw [paramText, paramText]
  refine Alike.peek_bind fun t => ?_
  split
  · exact textOfGroup_alike hn hm
  · exact .refuse

theorem returnText_alike (hn : 16 * L + 1 ≤ n) (hm : 16 * L + 1 ≤ m) :
    Alike anyTable N (fun _ _ a b => a = b) L e κ (returnText n) (returnText m) := by
  rw [returnText, returnText]
  refine Alike.peek_bind fun t => ?_
  split
  · refine Alike.mark_bind fun a b hab => ?_
    subst t
    refine Alike.shift_bind trivial fun j hj _ => ?_
    refine (TypesSteady.all N n).ty.bind_any (by omega) (by omega) fun _ _ _ _ _ => ?_
    exact Alike.textFrom_bind hab fun _ => Alike.pure rfl
  · exact Alike.pure rfl

theorem methodBody_alike (hn : 16 * L + 1 ≤ n) (hm : 16 * L + 1 ≤ m) :
    Alike anyTable N (fun i _ a b => i < L ∧ a = b) L e κ (methodBody n) (methodBody m) := by
  rw [methodBody, methodBody]
  refine Alike.peek_bind fun t => ?_
  split
  · cases L with
    | zero => exact .last
    | succ L => exact .take trivial fun w => .done ⟨Nat.lt_succ_self L, rfl⟩
  · exact textOfGroup_alike hn hm
  · exact .refuse

/-- A method is read alike behind attributes that are the same except for their places. -/
theorem method_alike (hattrs : List.Forall₂ (SameAttribute N) attrs attrs')
    (hfirst : N first first') (hn : 16 * L + 1 ≤ n) (hm : 16 * L + 1 ≤ m) :
    Alike anyTable N (fun i _ a b => i < L ∧ SameItem N a b) L e κ
      (method attrs first n) (method attrs' first' m) := by
  rw [method, method]
  refine (qualifiers_alike n hn hm).bind fun i₁ _ _ _ _ hi₁ _ => ?_
  refine Alike.token_bind trivial fun i₂ hi₂ _ => ?_
  refine Alike.token_bind trivial fun i₃ hi₃ name => ?_
  refine Alike.textFrom_bind hfirst fun head => ?_
  refine (params_steady n).bind_any (by omega) (by omega) fun i₄ _ _ params hi₄ => ?_
  refine (paramText_alike (by omega) (by omega)).bind fun i₅ _ _ text _ _ h₅ => ?_
  obtain ⟨hi₅, rfl⟩ := h₅
  refine (returnText_alike (by omega) (by omega)).bind fun i₆ _ _ ret _ hi₆ h₆ => ?_
  subst h₆
  refine (whereClause_steady n).bind_any (by omega) (by omega) fun i₇ _ _ clause hi₇ => ?_
  refine (methodBody_alike (by omega) (by omega)).bind fun i₈ _ _ body _ _ h₈ => ?_
  obtain ⟨hi₈, rfl⟩ := h₈
  refine Alike.mark_bind fun a b hab => Alike.pure ⟨by omega, .method ?_⟩
  exact ⟨rfl, hattrs, rfl, rfl, rfl, rfl, rfl, hfirst, hab⟩

theorem constOrMethod_alike (hattrs : List.Forall₂ (SameAttribute N) attrs attrs')
    (hfirst : N first first') (hn : 16 * L + 1 ≤ n) (hm : 16 * L + 1 ≤ m) :
    Alike anyTable N (fun i _ a b => i < L ∧ SameItem N a b) L e κ
      (constOrMethod attrs first n) (constOrMethod attrs' first' m) := by
  rw [constOrMethod, constOrMethod]
  refine Alike.token_bind trivial fun j hj _ => Alike.peek_bind fun t => ?_
  split
  · subst t
    refine Alike.shift_bind trivial fun i hi _ => ?_
    refine (verbatimRest_alike hattrs hfirst (by omega) (by omega)).mono fun _ _ _ _ _ h => ?_
    exact ⟨by omega, h.2⟩
  · refine (method_alike hattrs hfirst (by omega) (by omega)).mono fun _ _ _ _ _ h => ?_
    exact ⟨by omega, h.2⟩

/-- An item that is no macro call, by its first keyword. -/
theorem member_alike (hattrs : List.Forall₂ (SameAttribute N) attrs attrs')
    (hfirst : N first first') (hn : 16 * L + 1 ≤ n) (hm : 16 * L + 1 ≤ m) :
    Alike anyTable N (fun i _ a b => i < L ∧ SameItem N a b) L e κ
      (member attrs first n) (member attrs' first' m) := by
  rw [member, member]
  refine Alike.peek_bind fun t => ?_
  split
  · refine Alike.shift_bind trivial fun i₁ hi₁ _ => Alike.token_bind trivial fun i₂ hi₂ _ => ?_
    refine (verbatimRest_alike hattrs hfirst (by omega) (by omega)).mono fun _ _ _ _ _ h => ?_
    exact ⟨by omega, h.2⟩
  · exact constOrMethod_alike hattrs hfirst hn hm
  · exact method_alike hattrs hfirst hn hm

theorem item_alike (hattrs : List.Forall₂ (SameAttribute N) attrs attrs')
    (hn : 16 * L + 1 ≤ n) (hm : 16 * L + 1 ≤ m) :
    Alike anyTable N (fun i _ a b => i < L ∧ SameItem N a b) L e κ (item attrs n)
      (item attrs' m) := by
  have hrest : ∀ {i j j' e' κ'}, i < L → N j j' →
      Alike anyTable N (fun i _ a b => i < L ∧ SameItem N a b) i e' κ'
        (member attrs j n) (member attrs' j' m) := by
    intro i j j' e' κ' hi hj
    refine (member_alike hattrs hj (by omega) (by omega)).mono fun _ _ _ _ _ h => ?_
    exact ⟨by omega, h.2⟩
  rw [item, item]
  refine Alike.peek_bind fun t => ?_
  split
  · exact macroCall_alike hattrs hn hm
  · refine Alike.mark_bind fun a b hab => Alike.shift_bind trivial fun i hi _ => ?_
    refine Alike.peek_bind fun t => ?_
    split
    · exact group_bind_any (by omega) (by omega) fun i' _ _ _ _ hi' => hrest (by omega) hab
    · exact hrest (by omega) hab
  · exact Alike.mark_bind fun a b hab => member_alike hattrs hab hn hm

end Items

/-- The items of a block, of which the first has its attributes already. -/
theorem items_alike (n : Nat) {m L : Nat} {e : Expectation} {κ : Option Terminal}
    {attrs attrs' : List (Attribute Extent)} (hattrs : List.Forall₂ (SameAttribute N) attrs attrs')
    (hn : 16 * L + 2 ≤ n) (hm : 16 * L + 2 ≤ m) :
    Alike anyTable N (fun _ _ as bs => List.Forall₂ (SameItem N) as bs) L e κ
      (items attrs n) (items attrs' m) := by
  induction n generalizing m L e κ attrs attrs' with
  | zero => omega
  | succ n ih =>
    obtain ⟨m, rfl⟩ : ∃ j, m = j + 1 := ⟨m - 1, by omega⟩
    have hempty : attrs.isEmpty = attrs'.isEmpty := by
      cases hattrs <;> rfl
    -- So does an item.
    have hmore : ∀ κ', Alike anyTable N (fun _ _ as bs => List.Forall₂ (SameItem N) as bs) L e κ'
        (do let i ← item attrs n
            return i :: (← items (← attributes n) n))
        (do let i ← item attrs' m
            return i :: (← items (← attributes m) m)) := by
      intro κ'
      refine (item_alike hattrs (by omega) (by omega)).bind fun i₁ _ _ i i' _ hi => ?_
      refine (attributes_alike n (by omega) (by omega)).bind fun i₂ _ _ as bs hi₂ has => ?_
      refine (ih has (by omega) (by omega)).bind fun _ _ _ is is' _ his => ?_
      exact Alike.pure (.cons hi.2 his)
    rw [items, items, hempty]
    refine Alike.peek_bind fun t => ?_
    split
    · exact Alike.shift_bind trivial fun _ _ _ => Alike.pure .nil
    · exact hmore _

/-! ## Blocks -/

/-- The self type behind `for`, with its place, if there is one. -/
theorem forTy_alike {n m L : Nat} {e : Expectation} {κ : Option Terminal}
    (hn : 16 * L + 1 ≤ n) (hm : 16 * L + 1 ≤ m) :
    Alike anyTable N
      (fun _ _ a b => Option.Rel (fun x y => x.1 = y.1 ∧ Extent.Related N x.2 y.2) a b) L e κ
      (forTy n) (forTy m) := by
  rw [forTy, forTy]
  refine Alike.optional_bind trivial (fun j hj => ?_) fun _ => Alike.pure .none
  refine Alike.mark_bind fun a b hab => ?_
  refine (TypesSteady.all N n).ty.bind_any (by omega) (by omega) fun _ _ _ type _ => ?_
  exact Alike.mark_bind fun a' b' hab' => Alike.pure (.some ⟨rfl, hab, hab'⟩)

/-- An impl block after its attributes; it began with token number `first`. -/
def blockAfter (attrs : List (Attribute Extent)) (first n : Nat) : Reading (ImplBlock Extent) := do
  let isUnsafe ← optional .kwUnsafe [.kwImpl]
  let _ ← token .kwImpl Expected.type
  let params ← params n
  let headerFirst ← mark
  let header ← bareTy n
  let headerText ← textFrom headerFirst
  let headerPlace : Extent := ⟨headerFirst, ← mark⟩
  let self ← forTy n
  let clause ← whereClause n
  let _ ← token .lbrace Expected.body
  let (innerAttrs, outerAttrs) ← bodyAttributes n
  let items ← items outerAttrs n
  let text ← textFrom first
  let place : Extent := ⟨first, ← mark⟩
  match self with
  | none =>
    return ⟨attrs, isUnsafe, ⟨params, clause⟩, none, header, headerPlace, innerAttrs, items, text,
      place⟩
  | some (selfTy, selfPlace) =>
    return ⟨attrs, isUnsafe, ⟨params, clause⟩, some headerText, selfTy, selfPlace, innerAttrs,
      items, text, place⟩

/-- A block is read from its attributes on. -/
theorem implBlock_eq (n : Nat) :
    implBlock n = (do
      let first ← mark
      let attrs ← attributes n
      blockAfter attrs first n) := rfl

/-- After their attributes two blocks are read alike, whatever their attributes are. -/
theorem blockAfter_alike {attrs attrs' : List (Attribute Extent)} {first first' n m L : Nat}
    {e : Expectation} {κ : Option Terminal} (hn : 16 * L + 1 ≤ n) (hm : 16 * L + 1 ≤ m) :
    Alike anyTable N (fun _ _ a b => a.attrs = attrs ∧ b.attrs = attrs' ∧
        ImplBlock.Related (Extent.Related N) a b) L e κ
      (blockAfter attrs first n) (blockAfter attrs' first' m) := by
  rw [blockAfter, blockAfter]
  refine Alike.optional_bind_same trivial fun i₁ _ _ isUnsafe hi₁ => ?_
  refine Alike.token_bind trivial fun i₂ hi₂ _ => ?_
  refine (params_steady n).bind_any (by omega) (by omega) fun i₃ _ _ params hi₃ => ?_
  refine Alike.mark_bind fun a b hab => ?_
  refine (TypesSteady.all N n).bareTy.bind_any (by omega) (by omega) fun i₄ _ _ header hi₄ => ?_
  refine Alike.textFrom_bind hab fun headerText => Alike.mark_bind fun a' b' hab' => ?_
  refine (forTy_alike (by omega) (by omega)).bind fun i₅ _ _ self self' hi₅ hself => ?_
  refine (whereClause_steady n).bind_any (by omega) (by omega) fun i₆ _ _ clause hi₆ => ?_
  refine Alike.token_bind trivial fun i₇ hi₇ _ => ?_
  refine (bodyAttributes_alike n (by omega) (by omega)).bind fun i₈ _ _ body body' hi₈ hbody => ?_
  refine (items_alike n hbody.2 (by omega) (by omega)).bind fun i₉ _ _ its its' hi₉ hitems => ?_
  -- The text of the whole block holds its attributes and may differ.
  refine .anyText fun text text' => Alike.mark_bind fun _ _ _ => ?_
  cases hself with
  | none => exact Alike.pure ⟨rfl, rfl, rfl, rfl, rfl, rfl, ⟨hab, hab'⟩, hbody.1, hitems⟩
  | some h => exact Alike.pure ⟨rfl, rfl, rfl, rfl, rfl, h.1, h.2, hbody.1, hitems⟩

end ShadowImpl.Grammar
