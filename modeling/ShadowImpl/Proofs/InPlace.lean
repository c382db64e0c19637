import ShadowImpl.Expansion.Basic
import ShadowImpl.Proofs.BodyStart
import ShadowImpl.Proofs.MetaLists
import ShadowImpl.Proofs.Offsets

/-!
# Items in place

An item that is read on its own is read as the only item of a block around it, and its places move
by what stands in front of it.
-/

namespace ShadowImpl

open Reading

variable {x r : List Char} {s s' s₁ : Scan} {t : Token} {e : Expectation} {i j : Item Extent}
    {n m : Nat}

/-! ## The text around an item -/

/-- What stands in front of an item. -/
def blockFront : List Char :=
  "impl X \x7b\n".toList

/-- What stands behind it. -/
def blockBack : List Char :=
  ['\n', '\x7d']

/-- A block of the type `X` around a text. -/
def inBlock (x : List Char) : List Char :=
  blockFront ++ (x ++ blockBack)

theorem length_inBlock (x : List Char) : (inBlock x).length = x.length + 11 := by
  simp only [inBlock, blockBack, List.length_append, List.length_cons, List.length_nil]
  rw [show blockFront.length = 9 from rfl, Nat.add_comm]

/-- Up to the last token, the same is read in front of the end of the block. -/
theorem Next.of_blockBack (h : s.next = .token t r) (hreach : Scan.Reaches ⟨t :: s.taken, r, e⟩ s₁)
    (hend : s₁.next.kind = .eof) :
    Next.of s.expected (s.rest ++ blockBack) = .token t (r ++ blockBack) := by
  have no_mark : ∀ m : Mark, ¬ m.text <:+: blockBack := by
    intro m
    cases m <;> decide
  refine Next.of_append h (hreach.lexes_of_eof hend) ?_ (fun _ _ => .inr rfl) fun m _ _ => no_mark m
  intro c hc
  obtain rfl : '\n' = c := by simpa [blockBack] using hc
  exact ⟨rfl, by simp, by simp⟩

/-- Behind an item the end of the text becomes the end of the block. -/
theorem Next.of_end (he : e ∈ Grammar.behindItem) (h : (Next.of e x).kind = .eof) :
    Next.of e (x ++ blockBack) = .token ⟨.rbrace, x ++ ['\n'], ['\x7d']⟩ [] := by
  obtain ⟨g, hg⟩ := Next.exists_ended h
  have hback : Next.of e blockBack = .token ⟨.rbrace, ['\n'], ['\x7d']⟩ [] := by
    simp only [Grammar.behindItem, List.mem_cons, List.not_mem_nil, or_false] at he
    rcases he with rfl | rfl <;> rfl
  rw [blockBack, Next.of_ended_append hg, ← blockBack, hback, Next.prepend]

/-! ## The same tokens -/

/-- The same token stands next in both, in the second one with the end of the block behind it. -/
def Indoors (s s' : Scan) : Prop :=
  ∃ t t' r, s.next = .token t r ∧ s'.next = .token t' (r ++ blockBack) ∧ t.kind = t'.kind ∧
  t.text = t'.text

/-- A scan of an item on its own, and one of the item in a block. -/
abbrev Housed (base : List Token) : Scan → Scan → Prop :=
  Paced (fun _ y y' => y' = y ++ blockBack) Indoors [] base

variable {base : List Token}

/-- Where the text of the item ends, the block does. -/
theorem Housed.next_eq (h : Housed base s₁ s') (hend : s₁.next.kind = .eof)
    (hexpected : s₁.expected ∈ Grammar.behindItem) :
    s'.next = .token ⟨.rbrace, s₁.rest ++ ['\n'], ['\x7d']⟩ [] := by
  cases h with
  | start _ h₀ =>
    obtain ⟨u, u', q, hu, -⟩ := h₀
    obtain ⟨g, hg⟩ := Next.exists_ended hend
    rw [Scan.next, hg] at hu
    cases hu
  | going _ _ he hrest => rw [Scan.next, ← he, hrest, Next.of_end hexpected hend]

theorem housed_lockstepTo (base : List Token) (hend : s₁.next.kind = .eof)
    (hexpected : s₁.expected ∈ Grammar.behindItem) :
    LockstepTo Grammar.anyTable (Offset 0 base.length) (Housed base) [.rbrace, .eof] s₁ where
  kind := by
    rintro s s' h ⟨t, r, e, hnext, hreach⟩
    cases h with
    | start _ h₀ =>
      obtain ⟨u, u', q, hu, hu', hkind, -⟩ := h₀
      rw [kind_of_token hu, kind_of_token hu', hkind]
    | going _ _ he hrest =>
      rw [kind_of_token hnext, Scan.next, ← he, hrest,
        Next.of_blockBack hnext hreach hend, Next.kind]
  take := by
    rintro s s' t r e h hnext - hreach
    -- Only the first token can have another gap in front of it.
    cases h with
    | start hb h₀ =>
      obtain ⟨u, u', q, hu, hu', -, htext⟩ := h₀
      obtain ⟨rfl, rfl⟩ := Next.token.inj (hnext.symm.trans hu)
      refine ⟨u', _, hu', htext.symm, .going ⟨?_, ?_, .single htext⟩ (by simp) rfl rfl⟩
      · simpa using hb.left
      · simpa using hb.right
    | @going ts ts' hb hts he hrest =>
      refine ⟨t, r ++ blockBack, ?_, rfl, .going ⟨?_, ?_, hb.same.cons hts t⟩ (by simp) rfl rfl⟩
      · rw [Scan.next, ← he, hrest, Next.of_blockBack hnext hreach hend]
      · simpa using hb.left
      · simpa using hb.right
  count h := by
    obtain ⟨ts, ts', h⟩ := h.behind
    exact h.offset
  text h hij := by
    obtain ⟨ts, ts', h⟩ := h.behind
    exact h.textFrom_eq hij
  ended := by simp [hend]
  stopped h := by
    rw [h.next_eq hend hexpected, Next.kind]
    exact List.mem_cons_self

namespace Grammar

/-! ## The same item -/

/-- An item on its own, after its attributes. -/
def itemAlone (n : Nat) : Reading (Item Extent) := do
  item (← attributes n) n

theorem itemAlone_alike {N : Nat → Nat → Prop} {k L : Nat} {κ : Option Terminal}
    (hn : 16 * L + 1 ≤ n) (hm : 16 * L + 1 ≤ m) (hk : 16 * L + 1 ≤ k) :
    Alike anyTable N (fun _ _ i j => SameItem N i j) L e κ (itemAlone n)
      (attributes m >>= fun attrs => item attrs k) := by
  rw [itemAlone]
  refine (attributes_alike n hn hm).bind fun _ _ _ as bs hle has => ?_
  exact (item_alike has (by omega) (by omega)).mono fun _ _ _ _ _ h => h.2

theorem advances_itemAlone (n : Nat) {k : Nat} : (itemAlone n).Advances k := by
  rw [itemAlone]
  exact .bind (safe_attributes n) fun as => advances_item as n

theorem closes_itemAlone (n k : Nat) :
    Closes behindItem [.rbrace, .eof] false (attributes n >>= fun attrs => item attrs k) :=
  .after (attributes n) fun _ => closes_item (by decide) k

variable {attrs : List (Attribute Extent)}

/-- No item starts with the brace that ends a block. -/
theorem item_kind_ne (h : (item attrs n).run s = .ok (i, s')) : s.next.kind ≠ .rbrace := by
  intro hkind
  rw [item, run_peek_bind, hkind] at h
  simp only [run_mark_bind, member, run_peek_bind, hkind, method] at h
  obtain ⟨⟨⟩, s₁, hqualifiers, h⟩ := run_bind_eq_ok.mp h
  obtain rfl : s₁ = s := by
    cases n with
    | zero => simp [qualifiers] at hqualifiers
    | succ n =>
      rw [qualifiers, run_peek_bind, hkind] at hqualifiers
      simpa [eq_comm] using hqualifiers
  obtain ⟨t, r, hnext, ht, -⟩ := run_token_bind_eq_ok.mp h
  rw [kind_of_token hnext, ht] at hkind
  cases hkind

/-- The items of a body of which one is read and the end stands next. -/
theorem items_of_item (h : (item attrs (n + 1)).run s = .ok (i, s₁)) (hend : s₁.next = .token t r)
    (ht : t.kind = .rbrace) :
    (items attrs (n + 2)).run s = .ok ([i], ⟨t :: s₁.taken, r, []⟩) := by
  have hkind : s₁.next.kind = .rbrace := by rw [kind_of_token hend, ht]
  have hattributes : (attributes (n + 1)).run s₁ = .ok ([], s₁) := by
    rw [attributes, run_peek_bind, hkind]
    rfl
  refine items_cons_iff.mpr ⟨by simp [item_kind_ne h], s₁, [], s₁, h, hattributes, ?_⟩
  rw [items, run_peek_bind, hkind]
  exact run_shift_bind_eq_ok.mpr ⟨t, r, hend, rfl⟩

/-- Behind the brace, the first token of the item is the one that stands first without a block. -/
theorem exists_bodyStart_inBlock (hnext : Next.of Expected.item x = .token t r)
    (hreach : Scan.Reaches ⟨[t], r, e⟩ s₁) (hend : s₁.next.kind = .eof) (taken : List Token)
    (hn : x.length + 3 < n) :
    ∃ inner σ m g, σ.next = .token ⟨t.kind, g, t.text⟩ (r ++ blockBack) ∧
      σ.rest.length ≤ x.length + 3 ∧ n + σ.rest.length ≤ m + (x.length + 3) ∧
      ∀ outer s', (bodyAttributes m).run σ = .ok (([], outer), s') →
        (bodyAttributes n).run ⟨taken, '\n' :: (x ++ blockBack), Expected.body⟩ =
          .ok ((inner, outer), s') := by
  have hback : Next.of Expected.item (x ++ blockBack) = .token t (r ++ blockBack) :=
    Next.of_blockBack (s := .start Expected.item x) hnext hreach hend
  have hline : Next.of Expected.item ('\n' :: (x ++ blockBack)) =
      .token ⟨t.kind, '\n' :: t.gap, t.text⟩ (r ++ blockBack) := by
    rw [← List.singleton_append, Next.of_layout_append (by simp [Recogniser.isLayout]), hback]
    rfl
  have hlen : ('\n' :: (x ++ blockBack)).length = x.length + 3 := by
    simp [blockBack]
  simpa only [hlen] using exists_bodyStart hline taken (by rw [hlen]; exact hn)

/-- The block up to the text inside of it. -/
theorem blockHead_inBlock {outer inner : List (Attribute Extent)}
    (h : (bodyAttributes (n + 6)).run ⟨[⟨.lbrace, [' '], ['\x7b']⟩, ⟨.ident, [' '], ['X']⟩,
      ⟨.kwImpl, [], "impl".toList⟩], '\n' :: (x ++ blockBack), Expected.body⟩ =
        .ok ((inner, outer), s')) :
    ∃ b, (blockHead (n + 6)).run (.start Expected.block (inBlock x)) = .ok ((b, outer), s') := by
  have himpl (y : List Char) : Next.of Expected.block ("impl X \x7b".toList ++ y) =
    .token ⟨.kwImpl, [], "impl".toList⟩ (" X \x7b".toList ++ y) := rfl
  have hname (y : List Char) : Next.of Expected.type (" X \x7b".toList ++ y) =
    .token ⟨.ident, [' '], ['X']⟩ (" \x7b".toList ++ y) := rfl
  have hbrace (y : List Char) : Next.of Expected.afterType (" \x7b".toList ++ y) =
    .token ⟨.lbrace, [' '], ['\x7b']⟩ y := rfl
  exact blockHead_of_name (s := .start Expected.block (inBlock x))
    (himpl ('\n' :: (x ++ blockBack))) rfl (hname _) rfl (hbrace _) rfl h

/-- The item is read where its first token stands next in front of the end of the block. -/
theorem exists_bodyItem (h : (itemAlone (depth x)).run (.start Expected.item x) = .ok (i, s₁))
    (hend : s₁.next.kind = .eof) (hexpected : s₁.expected ∈ behindItem)
    (hnext : Next.of Expected.item x = .token t r) {g : List Char}
    (hbody : s.next = .token ⟨t.kind, g, t.text⟩ (r ++ blockBack)) {k : Nat}
    (hm : 16 * s.rest.length + 1 ≤ m) (hk : 16 * s.rest.length + 1 ≤ k)
    (hkx : 16 * x.length + 1 ≤ k) : ∃ outer j s₂ s₃, (bodyAttributes (m + 1)).run s =
      .ok (([], outer), s₃) ∧ (item outer k).run s₃ = .ok (j, s₂) ∧ SameItem
    (Offset 0 s.taken.length) i j ∧
        Housed s.taken s₁ s₂ := by
  -- The first token ties the two scans together, and from there on they go in step.
  have hstart : Housed s.taken (.start Expected.item x) s :=
    .start ⟨rfl, rfl, .nil⟩ ⟨t, _, r, hnext, hbody, rfl, rfl⟩
  have hdepth : 16 * x.length + 1 ≤ depth x := by
    rw [depth]
    omega
  have halike := itemAlone_alike (m := k) (k := k) (L := x.length) (e := Expected.item)
    (N := Offset 0 s.taken.length) (κ := none) hdepth hkx hkx
  obtain ⟨j, s₂, -, hrun, hsame, hhoused⟩ := follow_to halike
    (housed_lockstepTo s.taken hend hexpected) (closes_itemAlone k k) hstart rfl (by simp)
    (Nat.le_refl _) h
  obtain ⟨outer, s₃, houter, hitem⟩ := run_bind_eq_ok.mp hrun
  have hkind : s.next.kind ≠ .innerDoc := by
    rw [kind_of_token hbody]
    exact kind_ne_innerDoc (t := t) hnext
  exact ⟨outer, j, s₂, s₃, bodyAttributes_of_attributes hkind
    (attributes_depth houter hk hm) hm, hitem, hsame, hhoused⟩

/-- An item that is read on its own is read in a block around it. -/
theorem exists_block (h : (itemAlone (depth x)).run (.start Expected.item x) = .ok (i, s₁))
    (hend : s₁.next.kind = .eof) :
    ∃ b j s₂ base, (whole implBlock (depth (inBlock x))).run (.start Expected.block (inBlock x)) =
        .ok (b, ⟨⟨.rbrace, s₁.rest ++ ['\n'], ['\x7d']⟩ :: s₂.taken, [], []⟩) ∧
      b.items = [j] ∧ SameItem (Offset 0 base.length) i j ∧ Housed base s₁ s₂ := by
  have hlt := Advances.lt_of_run (advances_itemAlone _) h
  have hexpected : s₁.expected ∈ behindItem := (closes_itemAlone _ _).expected_mem (by simp) h
  obtain ⟨n, hn, hdepth⟩ : ∃ n, depth (inBlock x) = n + 6 ∧ n + 6 = 16 * x.length + 192 := by
    refine ⟨16 * x.length + 186, ?_, rfl⟩
    rw [depth, length_inBlock]
    omega
  cases Scan.reaches_of_run h with
  | refl => exact absurd hlt (Nat.lt_irrefl _)
  | step hnext hreach =>
    -- Comments in front of the item may be taken for documentation of the block.
    obtain ⟨inner, s, m, g, hs, hshort, hm, hbody⟩ := exists_bodyStart_inBlock hnext hreach hend
      [⟨.lbrace, [' '], ['\x7b']⟩, ⟨.ident, [' '], ['X']⟩, ⟨.kwImpl, [], "impl".toList⟩]
      (n := n + 6) (by change x.length + 3 < _; omega)
    change s.rest.length ≤ x.length + 3 at hshort
    change n + 6 + s.rest.length ≤ m + (x.length + 3) at hm
    obtain ⟨m, rfl⟩ : ∃ k, m = k + 1 := ⟨m - 1, by omega⟩
    obtain ⟨outer, j, s₂, s₃, houter, hitem, hsame, hhoused⟩ := exists_bodyItem
      (k := n + 5) (m := m) h hend hexpected hnext hs (by omega) (by omega) (by omega)
    obtain ⟨b₀, hhead⟩ := blockHead_inBlock (hbody _ _ houter)
    have hitems := items_of_item hitem (hhoused.next_eq hend hexpected) rfl
    have hblock : (blockEnd b₀ [] outer (n + 6)).run s₃ = .ok (endedAt b₀ [j] _, _) :=
      blockEnd_eq_ok.mpr ⟨[j], hitems, rfl, rfl⟩
    rw [hn, whole_eq]
    exact ⟨_, j, s₂, s.taken, run_bind_eq_ok.mpr ⟨_, _, hhead, hblock⟩, rfl, hsame, hhoused⟩

/-! ## The same places -/

theorem itemAlone_placed (h : (itemAlone n).run s = .ok (i, s')) :
    i.Placed s'.taken.reverse ∧ ∀ a ∈ i.attrs, a.Placed s'.taken.reverse := by
  obtain ⟨as, s₁, has, hi⟩ := run_bind_eq_ok.mp h
  have hattrs : i.attrs = as := (item_attrs as n).of_run hi
  refine ⟨(item_sited hi).placed, ?_⟩
  rw [hattrs]
  exact (attributes_placed n has).placed_later (later_of_run hi)

/-- In the block, the item stands behind the first line. -/
theorem exists_block_behind (h : (itemAlone (depth x)).run (.start Expected.item x) = .ok (i, s₁))
    (hend : s₁.next.kind = .eof) (file : String) :
    ∃ b j s₂, (whole implBlock (depth (inBlock x))).run (.start Expected.block (inBlock x)) =
      .ok (b, s₂) ∧ b.items = [j] ∧ j.map (Extent.located file (inBlock x) s₂.taken.reverse) =
        (i.map (Extent.located file x s₁.taken.reverse)).map (Location.behind blockFront) := by
  obtain ⟨b, j, s₂, base, hblock, hitems, hsame, hhoused⟩ := exists_block h hend
  obtain ⟨hplaced, hattrs⟩ := itemAlone_placed h
  refine ⟨b, j, _, hblock, hitems, ?_⟩
  have htext := text_of_run h
  have hlen := congrArg List.length (text_of_run hblock)
  have hlen' := congrArg List.length htext
  rw [length_inBlock] at hlen
  obtain ⟨us, us', hus⟩ := hhoused.behind
  have hleft : s₁.taken = us := by simpa using hus.left
  rw [Item.map_map]
  refine (Item.Related.map_eq ?_ hsame hplaced hattrs).symm
  intro y y' hy hyy'
  rw [hleft] at hy htext hlen' ⊢
  simp only [List.reverse_cons, hus.right, List.reverse_append, List.append_assoc,
    Token.spelled_append, List.length_append, Token.spelled_cons, Token.spelled_nil,
    List.length_cons, List.length_nil] at hlen hlen' ⊢
  refine (Extent.located_behind rfl hus.same ?_ htext hy hyy' file).symm
  rw [show blockFront.length = 9 from rfl]
  omega

end Grammar

/-! ## Items and blocks -/

theorem toList_inBlock (text : String) :
    ("impl X \x7b\n" ++ text ++ "\n\x7d").toList = inBlock text.toList := by
  simp only [String.toList_append, List.append_assoc]
  rfl

/-- An item that is read on its own is read as the only item of a block around it, with its places
behind the first line of the block. The check of the item on its own takes it for a method where the
pass over the methods of the block does. -/
theorem Source.implBlock_around_item (file text : String) (i : Item Location)
    (h : Source.item ⟨file, text, none⟩ = .ok i) :
    ∃ b, Source.implBlock ⟨file, "impl X \x7b\n" ++ text ++ "\n\x7d", none⟩ = .ok b ∧
      b.items = [i.map (Location.behind blockFront)] ∧
      (∀ m, (checkMethod text file).result = .ok m → ∀ s, b.items.mapM (Item.expand s) = do
        let m' := m.map (Location.behind blockFront)
        return [.method (m'.expand (← m'.directive s))]) ∧
      ∀ f, (checkMethod text file).result = .error f → ∃ v : VerbatimItem Location,
        f = ⟨.notMethod v.kind, some v.place⟩ ∧ ∀ s, b.items.mapM (Item.expand s) = do
          (v.map (Location.behind blockFront)).check
          return b.items := by
  obtain ⟨i₀, ts, hparse, hi⟩ := exists_parsed h
  obtain ⟨s₁, hrun, hend, rfl⟩ := Reading.parse_eq_ok_iff.mp hparse
  obtain ⟨b, j, s₂, hblock, hitems, hj⟩ :=
    Grammar.exists_block_behind (x := text.toList) hrun hend file
  rw [← toList_inBlock] at hblock hj
  have hplaced : (b.map (Extent.located file ("impl X \x7b\n" ++ text ++ "\n\x7d").toList
      s₂.taken.reverse)).items = [i.map (Location.behind blockFront)] := by
    rw [hi, ImplBlock.map, hitems, List.map_singleton]
    exact congrArg (fun k => [k]) hj
  refine ⟨_, (implBlock_eq_ok rfl).mpr ⟨b, s₂, hblock, rfl⟩, hplaced,
    fun m hm s => ?_, fun f hf => ?_⟩
  · rw [checkMethod, Source.method, Source.methodM, Source.itemM_plain, h] at hm
    cases i with
    | method m =>
      obtain rfl := Except.ok.inj hm
      rw [hplaced]
      simp [Item.map]
    | verbatim v => cases hm
  · rw [checkMethod, Source.method, Source.methodM, Source.itemM_plain, h] at hf
    -- The check of an item refuses what is no method. The pass over the methods leaves it as it is.
    cases i with
    | method m => cases hf
    | verbatim v =>
      refine ⟨v, (Except.error.inj hf).symm, fun s => ?_⟩
      rw [hplaced]
      simp [Item.map]

/-- A method behind a comment that documents the block once it stands there, and in front of another
comment. -/
theorem Source.implBlock_around_item_documented : ∃ i b,
    Source.item ⟨"a.rs", "//! d\n#[shadow_method] fn f() \x7b\x7d // end", none⟩ = .ok i ∧
    Source.implBlock ⟨"a.rs", "impl X \x7b\n" ++ "//! d\n#[shadow_method] fn f() \x7b\x7d // end" ++
      "\n\x7d", none⟩ = .ok b ∧
    b.items = [i.map (Location.behind blockFront)] := by
  obtain ⟨i, hi⟩ := exists_of_isOk (x := Source.item ⟨"a.rs",
    "//! d\n#[shadow_method] fn f() \x7b\x7d // end", none⟩) (by decide +kernel)
  obtain ⟨b, hb, hitems, -⟩ := Source.implBlock_around_item _ _ i hi
  exact ⟨i, b, hi, hb, hitems⟩

end ShadowImpl
