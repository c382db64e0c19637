import ShadowImpl.Proofs.BlockParts
import ShadowImpl.Proofs.Endings
import ShadowImpl.Proofs.Quotations

/-!
# Blocks in front of more text

A block of which no token leaves anything open is read in the same way when text follows it that
closes everything. There each part of the block may be quoted.
-/

namespace ShadowImpl

open Reading

variable {s s' s₁ : Scan} {e : Expectation} {w x : List Char} {ends : List Terminal}
    {ts : List Token}
  {g : List Char} {n : Nat} {b : ImplBlock Extent}

/-- No token leaves anything open up to the end of the text. -/
def Shut (ts : List Token) (g : List Char) : Prop :=
  ∀ us t vs, ts = us ++ t :: vs → ∀ m : Mark, ¬ m.Awaited (t.text ++ (Token.spelled vs ++ g))

theorem Shut.harmless (h : Shut ts g) (w : List Char) : Harmless ts g w :=
  fun us t vs heq m hawaited => absurd hawaited (h us t vs heq m)

/-- Where nothing is opened, nothing is left open. -/
theorem shut_of_openings (h : ∀ m : Mark, ∀ o ∈ m.openings, ¬ o <:+: Token.spelled ts ++ g) :
    Shut ts g := by
  rintro us t vs rfl m ⟨o, ho, r, heq, -⟩
  refine h m o ho ⟨Token.spelled us ++ t.gap, r, ?_⟩
  simp [Token.spelled_append, Token.spelled_cons, heq]

/-- A line that closes all that can be open. -/
def closers : List Char :=
  "\n*/\"##".toList

theorem shuts_closers : Shuts closers := by
  intro m
  cases m <;> decide

/-- Up to the end of the text the same tokens are taken with more text behind it. -/
theorem prolonged_lockstepTo (h : Harmless s₁.taken.reverse s₁.rest w) (hend : s₁.next.kind = .eof)
    (hw : w.head? = some '\n') :
    LockstepTo Grammar.anyTable (Offset 0 0) (Prolonged w fun _ => True)
      [.eof, (Next.of s₁.expected (s₁.rest ++ w)).kind] s₁ where
  kind := by
    rintro s s' hs ⟨t, r, e, hnext, hreach⟩
    rw [kind_of_token hnext,
      kind_of_token (hs.next_token (bears_of_harmless h) hend hw hnext hreach)]
  take := by
    rintro s s' t r e hs hnext - hreach
    exact ⟨t, r ++ w, hs.next_token (bears_of_harmless h) hend hw hnext hreach, rfl,
      by rw [hs.taken], rfl, rfl, trivial⟩
  count hs := by
    rw [hs.taken]
    exact ⟨_, (Nat.zero_add _).symm, (Nat.zero_add _).symm⟩
  text hs hij := by
    rw [Scan.textFrom, Scan.textFrom, hs.taken, hij.eq]
  ended := by simp [hend]
  stopped hs := by
    rw [Scan.next, hs.expected, hs.rest]
    simp

namespace Grammar

variable {attrs : List (Attribute Extent)} {first : Nat} {certain : Bool}

theorem closes_items (n : Nat) : ∀ attrs, Closes [[]] ends certain (items attrs n) := by
  induction n generalizing certain with
  | zero => exact fun attrs => .refuse
  | succ n ih =>
    intro attrs
    rw [items]
    refine .after peek fun t => ?_
    split
    · exact .bind (.shift (by simp)) fun _ => .done
    · refine .after (item attrs n) fun i => .after (attributes n) fun more => ?_
      exact (ih more).bind fun is => .done

/-- A block ends with its closing brace. -/
theorem closes_implBlock (n : Nat) : Closes [[]] ends certain (implBlock n) := by
  rw [implBlock]
  refine .after mark fun first => .after (attributes n) fun attrs => .after
    (optional _ _) fun isUnsafe => ?_
  refine .after (token _ _) fun _ => .after (params n) fun ps => .after mark fun headerFirst => ?_
  refine .after (bareTy n) fun header => .after (textFrom _) fun headerText =>
    .after mark fun headerLast => ?_
  refine .after (forTy n) fun self => .after (whereClause n) fun clause => .after
    (token _ _) fun _ => ?_
  refine .after (bodyAttributes n) fun inner => (closes_items n inner.2).bind fun is => ?_
  refine .bind (.textFrom first) fun text => .bind .mark fun last => ?_
  cases self <;> exact .done

theorem implBlock_alike {m L : Nat} {N : Nat → Nat → Prop} {κ : Option Terminal}
    (hn : 16 * L + 1 ≤ n) (hm : 16 * L + 1 ≤ m) :
    Alike anyTable N (fun _ _ b b' => b.unplaced = b'.unplaced) L e κ (implBlock n)
      (implBlock m) := by
  rw [implBlock_eq, implBlock_eq]
  refine Alike.mark_bind fun i j _ => (attributes_alike n hn hm).bind fun k _ _ as as' hk has => ?_
  refine (blockAfter_alike (by omega) (by omega)).mono fun _ _ b b' _ hb => ?_
  obtain ⟨hattrs, hattrs', hrelated⟩ := hb
  rw [hrelated.unplaced_eq, hattrs, Attribute.map_unplaced_eq has, ← hattrs']
  rfl

/-- A block that leaves nothing open is read in front of the line that closes everything. -/
theorem implBlock_prolonged {m : Nat} (h : (whole implBlock n).run (.start e x) = .ok (b, s₁))
    (hn : 16 * x.length + 1 ≤ n) (hm : 16 * x.length + 1 ≤ m)
    (hshut : Shut s₁.taken.reverse s₁.rest) : ∃ b' : ImplBlock Extent, b'.unplaced = b.unplaced ∧
    (implBlock m).run (.start e (x ++ closers)) =
      .ok (b', ⟨s₁.taken, s₁.rest ++ closers, s₁.expected⟩) := by
  obtain ⟨hrun, hend⟩ := whole_ok_iff.mp h
  have hlock := prolonged_lockstepTo (w := closers) (hshut.harmless _) hend rfl
  have hstart : Prolonged closers (fun _ => True) (.start e x) (.start e (x ++ closers)) :=
    ⟨rfl, rfl, rfl, trivial⟩
  obtain ⟨b', ⟨taken', rest', e'⟩, -, hrun', hb, hs⟩ :=
    follow_to (implBlock_alike (e := e) (κ := none) hn hm) hlock
    (closes_implBlock m : Closes _ _ false _) hstart rfl (by simp) (Nat.le_refl _) hrun
  obtain ⟨rfl, rfl, rfl, -⟩ := hs
  exact ⟨b', hb.symm, hrun'⟩

end Grammar
end ShadowImpl
