import Mathlib.Order.Filter.AtTopBot.Basic
import ShadowImpl.Proofs.Written

/-!
# Rules for readings

What a reading makes of a text, said one step at a time. The tokens taken before make no difference,
so they are left open; the depth is any that is large enough.
-/

namespace ShadowImpl

open Filter Lexeme Recogniser

/-- What holds of all large numbers that are no zero holds of all large numbers. -/
theorem eventually_of_succ {p : Nat → Prop} (h : ∀ᶠ n in atTop, p (n + 1)) :
    ∀ᶠ n in atTop, p n := by
  obtain ⟨N, hN⟩ := eventually_atTop.mp h
  refine eventually_atTop.mpr ⟨N + 1, fun n hn => ?_⟩
  obtain ⟨m, rfl⟩ : ∃ m, n = m + 1 := ⟨n - 1, by omega⟩
  exact hN m (by omega)

namespace Reading

variable {α β : Type} {e e' e₁ : Expectation} {x y z : List Char} {a : α} {b : β}

/-- The reading takes the front of `x` for `a`; then `z` is left and `e'` is expected of it. -/
def Reads (r : Reading α) (e : Expectation) (x : List Char) (a : α) (e' : Expectation)
    (z : List Char) : Prop :=
  ∀ taken, ∃ taken', r.run ⟨taken, x, e⟩ = .ok (a, ⟨taken', z, e'⟩)

namespace Reads

/-- A reading that takes nothing. -/
theorem pure (a : α) : (Pure.pure a : Reading α).Reads e x a e x :=
  fun taken => ⟨taken, rfl⟩

/-- Two readings one behind the other. -/
theorem bind {r : Reading α} {f : α → Reading β} (h : r.Reads e x a e₁ y)
    (hf : (f a).Reads e₁ y b e' z) : (r >>= f).Reads e x b e' z := by
  intro taken
  obtain ⟨taken₁, h⟩ := h taken
  obtain ⟨taken', hf⟩ := hf taken₁
  exact ⟨taken', by rw [run_bind_of_ok h, hf]⟩

/-- What has been read is changed at the end. -/
theorem map {r : Reading α} {f : α → β} (h : r.Reads e x a e' z) :
    (r >>= fun a => Pure.pure (f a)).Reads e x (f a) e' z :=
  h.bind (pure _)

/-- What stands next is looked at, and decides how to go on. -/
theorem peek {κ : Terminal} {f : Terminal → Reading β} (hκ : (Next.of e x).kind = κ)
    (h : (f κ).Reads e x b e' z) : (Reading.peek >>= f).Reads e x b e' z := by
  subst hκ
  exact h

theorem peek_token {κ : Terminal} {g w : List Char} {f : Terminal → Reading β}
    (ht : Next.of e x = .token ⟨κ, g, w⟩ y) (h : (f κ).Reads e x b e' z) :
    (Reading.peek >>= f).Reads e x b e' z :=
  peek (congrArg Next.kind ht) h

/-- A token is taken, whatever it is. -/
theorem shift {t : Token} {f : String → Reading β} (ht : Next.of e x = .token t y)
    (h : (f (String.ofList t.text)).Reads e₁ y b e' z) : (shift e₁ >>= f).Reads e x b e' z := by
  intro taken
  obtain ⟨taken', h⟩ := h (t :: taken)
  exact ⟨taken', run_shift_bind_eq_ok.mpr ⟨t, y, ht, h⟩⟩

/-- A token of one class is taken. -/
theorem token {κ : Terminal} {g w : List Char} {f : String → Reading β}
    (ht : Next.of e x = .token ⟨κ, g, w⟩ y) (h : (f (String.ofList w)).Reads e₁ y b e' z) :
    (token κ e₁ >>= f).Reads e x b e' z := by
  intro taken
  obtain ⟨taken', h⟩ := h (⟨κ, g, w⟩ :: taken)
  exact ⟨taken', run_token_bind_eq_ok.mpr ⟨_, y, ht, rfl, h⟩⟩

/-- A token that may be there is there. -/
theorem present {κ : Terminal} {g w : List Char} {f : Bool → Reading β}
    (ht : Next.of e x = .token ⟨κ, g, w⟩ y) (h : (f true).Reads e₁ y b e' z) :
    (optional κ e₁ >>= f).Reads e x b e' z := by
  intro taken
  obtain ⟨taken', h⟩ := h (⟨κ, g, w⟩ :: taken)
  exact ⟨taken', run_optional_bind_eq_ok.mpr (.inl ⟨_, y, ht, rfl, h⟩)⟩

/-- A token that may be there is not there. -/
theorem absent {κ : Terminal} {f : Bool → Reading β} (hκ : (Next.of e x).kind ≠ κ)
    (h : (f false).Reads e x b e' z) : (optional κ e₁ >>= f).Reads e x b e' z := by
  intro taken
  obtain ⟨taken', h⟩ := h taken
  exact ⟨taken', run_optional_bind_eq_ok.mpr (.inr ⟨hκ, h⟩)⟩

end Reads

/-! ## Verbatim text -/

/-- The reading takes tokens whose text, from the first one on, is `w`. -/
def Copies (r : Reading α) (e : Expectation) (x w : List Char) (e' : Expectation) (z : List Char) :
    Prop :=
  ∀ taken, ∃ a t us, t.text ++ Token.spelled us = w ∧
    r.run ⟨taken, x, e⟩ = .ok (a, ⟨(t :: us).reverse ++ taken, z, e'⟩)

/-- The text from the tokens that were taken last. -/
theorem textFrom_latest (t : Token) (us taken : List Token) (z : List Char) (e : Expectation) :
    (Scan.mk ((t :: us).reverse ++ taken) z e).textFrom taken.length = t.text ++
      Token.spelled us := by
  have htake : ((t :: us).reverse ++ taken).take
      (((t :: us).reverse ++ taken).length - taken.length) = (t :: us).reverse := by
    rw [List.length_append, Nat.add_sub_cancel, List.take_left]
  rw [Scan.textFrom, htake, List.reverse_reverse]
  rfl

/-- A reading whose text is kept, whatever it comes to. -/
theorem Copies.bind {r : Reading α} {f : String → Reading β} {w : List Char}
    (h : r.Copies e x w e₁ y) (hf : (f (String.ofList w)).Reads e₁ y b e' z) :
    (mark >>= fun first => r >>= fun _ => textFrom first >>= f).Reads e x b e' z := by
  intro taken
  obtain ⟨a, t, us, rfl, hrun⟩ := h taken
  obtain ⟨taken', hf⟩ := hf ((t :: us).reverse ++ taken)
  refine ⟨taken', ?_⟩
  rw [run_mark_bind, run_bind_of_ok hrun, run_textFrom_bind, textFrom_latest, hf]

/-! ## Lists -/

section Lists

variable {element : Nat → Reading α} {close : Terminal} {afterClose : Expectation} {as : List α}
  {w : List Char}

/-- An element of a list in front of `z`: it starts with a token that passes `starts`, and the
separators are found behind it. -/
def Listed (element : Nat → Reading α) (seps : List Terminal) (starts : Terminal → Bool)
    (e : Expectation) (w : List Char) (a : α) (z : List Char) : Prop :=
  ∀ g, IsLayout g → starts (Next.of e (g ++ (w ++ z))).kind = true ∧
    ∃ e', (∀ κ ∈ seps, finds e' κ = true) ∧
      ∀ᶠ n in atTop, (element n).Reads e (g ++ (w ++ z)) a e' z

/-- An element needs no more room when fewer separators may follow it. -/
theorem Listed.weaken {seps seps' : List Terminal} {starts : Terminal → Bool}
    (h : Listed element seps starts e w a z) (hseps : ∀ κ ∈ seps', κ ∈ seps) :
    Listed element seps' starts e w a z := by
  intro g hg
  obtain ⟨hstarts, e', hfinds, hreads⟩ := h g hg
  exact ⟨hstarts, e', fun κ hκ => hfinds κ (hseps κ hκ), hreads⟩

/-- Elements with commas between them, in front of the token that ends the list. -/
def CommaListed (element : Nat → Reading α) (close : Terminal) (e afterClose : Expectation)
    (x : List Char) (as : List α) (z : List Char) : Prop :=
  ∀ g, IsLayout g → ∀ᶠ n in atTop, ∀ k > as.length,
    (commaList close e afterClose (element n) k).Reads e (g ++ (x ++ (close.spelling ++ z))) as
      afterClose z

/-- An empty list is its bracket. -/
theorem CommaListed.nil (h : finds e close = true) :
    CommaListed element close e afterClose [] [] z := by
  intro g hg
  refine .of_forall fun n k hk => ?_
  obtain ⟨k, rfl⟩ : ∃ j, k = j + 1 := ⟨k - 1, by omega⟩
  rw [commaList]
  exact .present (of_symbol h hg) (by rw [if_pos rfl]; exact .pure _)

/-- The last element stands in front of the bracket. -/
theorem CommaListed.single
    (h : Listed element [.comma, close] (· ≠ close) e w a (close.spelling ++ z))
    (hne : close ≠ .comma) : CommaListed element close e afterClose w [a] z := by
  intro g hg
  obtain ⟨hkind, e', hseps, hreads⟩ := h g hg
  have hclose := of_symbol_front (z := z) (hseps close (by simp))
  filter_upwards [hreads] with n hn k hk
  obtain ⟨k, rfl⟩ : ∃ j, k = j + 1 := ⟨k - 1, by omega⟩
  rw [commaList]
  refine .absent (of_decide_eq_true hkind) ?_
  rw [if_neg (by simp)]
  refine hn.bind (.absent ?_ ?_)
  · rw [hclose]
    exact hne
  · rw [if_neg (by simp)]
    exact .token hclose (.pure _)

/-- Other elements stand in front of a comma and a space. -/
theorem CommaListed.cons
    (h : Listed element [.comma, close] (· ≠ close) e w a
      (", ".toList ++ (x ++ (close.spelling ++ z))))
    (hrest : CommaListed element close e afterClose x as z) :
    CommaListed element close e afterClose (w ++ (", ".toList ++ x)) (a :: as) z := by
  intro g hg
  obtain ⟨hkind, e', hseps, hreads⟩ := h g hg
  have hcomma := of_symbol_front (z := ' ' :: (x ++ (close.spelling ++ z))) (hseps .comma (by simp))
  filter_upwards [hreads, hrest [' '] isLayout_space] with n hn hrest k hk
  obtain ⟨k, rfl⟩ : ∃ j, k = j + 1 := ⟨k - 1, by omega⟩
  rw [commaList, List.append_assoc, List.append_assoc]
  refine .absent (of_decide_eq_true hkind) ?_
  rw [if_neg (by simp)]
  refine hn.bind (.present hcomma ?_)
  rw [if_pos rfl]
  exact .map (f := (a :: ·)) (hrest k (by simpa using hk))

/-- Elements with plus signs between them; in front of each but the first, `e₁` is expected. -/
def PlusListed (element : Nat → Reading α) (e₁ e e' : Expectation) (x : List Char) (as : List α)
    (z : List Char) : Prop :=
  ∀ g, IsLayout g → ∀ᶠ n in atTop, ∀ k ≥ as.length,
    (plusList e₁ (element n) k).Reads e (g ++ (x ++ z)) as e' z

/-- A sum of one summand, which no `+` follows. -/
theorem PlusListed.single
    (h : ∀ g, IsLayout g → ∀ᶠ n in atTop, (element n).Reads e (g ++ (w ++ z)) a e' z)
    (hz : (Next.of e' z).kind ≠ .plus) : PlusListed element e₁ e e' w [a] z := by
  intro g hg
  filter_upwards [h g hg] with n hn k hk
  obtain ⟨k, rfl⟩ : ∃ j, k = j + 1 := ⟨k - 1, by simp at hk; omega⟩
  rw [plusList]
  refine hn.bind (.absent hz ?_)
  rw [if_neg (by simp)]
  exact .pure _

/-- A summand in front of `+` and others. -/
theorem PlusListed.cons
    (h : ∀ g, IsLayout g → ∀ᶠ n in atTop,
      (element n).Reads e (g ++ (w ++ (" + ".toList ++ (x ++ z)))) a e' (" + ".toList ++ (x ++ z)))
    (hplus : finds e' .plus = true) (hrest : PlusListed element e₁ e₁ e' x as z) :
    PlusListed element e₁ e e' (w ++ (" + ".toList ++ x)) (a :: as) z := by
  intro g hg
  have hplus := of_symbol (g := [' ']) (z := ' ' :: (x ++ z)) hplus isLayout_space
  filter_upwards [h g hg, hrest [' '] isLayout_space] with n hn hrest k hk
  obtain ⟨k, rfl⟩ : ∃ j, k = j + 1 := ⟨k - 1, by simp at hk; omega⟩
  rw [plusList, List.append_assoc, List.append_assoc]
  refine hn.bind (.present hplus ?_)
  rw [if_pos rfl]
  exact .map (f := (a :: ·)) (hrest k (by simpa using hk))

/-- Behind the last token there is only layout. -/
theorem kind_of_layout {g : List Char} (hg : IsLayout g) (e : Expectation) :
    (Next.of e g).kind = .eof := by
  have h := (gap_of_isLayout hg).of_append (e := e) (z := [])
  rw [List.append_nil] at h
  rw [h, Next.kind_prepend, Next.of_nil, Next.kind]

/-- Elements with commas between them, up to the end of the text. -/
def OpenListed (element : Nat → Reading α) (starts : Terminal → Bool) (e : Expectation)
    (x : List Char) (as : List α) : Prop :=
  ∀ g, IsLayout g → ∃ e' z, IsLayout z ∧ ∀ᶠ n in atTop, ∀ k > as.length,
    (openList starts e (element n) k).Reads e (g ++ x) as e' z

/-- A list that may end anywhere ends where the text does. -/
theorem OpenListed.nil {starts : Terminal → Bool} (h : starts .eof = false) :
    OpenListed element starts e [] [] := by
  intro g hg
  refine ⟨e, g, hg, .of_forall fun n k hk => ?_⟩
  obtain ⟨k, rfl⟩ : ∃ j, k = j + 1 := ⟨k - 1, by omega⟩
  rw [List.append_nil, openList]
  refine .peek (kind_of_layout hg e) ?_
  rw [if_neg (by simp [h])]
  exact .pure _

theorem OpenListed.single {starts : Terminal → Bool} (h : Listed element [.comma] starts e w a []) :
    OpenListed element starts e w [a] := by
  intro g hg
  obtain ⟨hkind, e', -, hreads⟩ := h g hg
  rw [List.append_nil] at hkind hreads
  refine ⟨e', [], isLayout_nil, ?_⟩
  filter_upwards [hreads] with n hn k hk
  obtain ⟨k, rfl⟩ : ∃ j, k = j + 1 := ⟨k - 1, by omega⟩
  rw [openList]
  refine .peek rfl ?_
  rw [if_pos hkind]
  refine hn.bind (.absent (by simp [Next.of, Next.scan, Next.kind]) ?_)
  rw [if_neg (by simp)]
  exact .pure _

theorem OpenListed.cons {starts : Terminal → Bool}
    (h : Listed element [.comma] starts e w a (", ".toList ++ x))
    (hrest : OpenListed element starts e x as) :
    OpenListed element starts e (w ++ (", ".toList ++ x)) (a :: as) := by
  intro g hg
  obtain ⟨hkind, e₁, hseps, hreads⟩ := h g hg
  obtain ⟨e', z, hz, hrest⟩ := hrest [' '] isLayout_space
  have hcomma := of_symbol_front (z := ' ' :: x) (hseps .comma (by simp))
  refine ⟨e', z, hz, ?_⟩
  filter_upwards [hreads, hrest] with n hn hrest k hk
  obtain ⟨k, rfl⟩ : ∃ j, k = j + 1 := ⟨k - 1, by omega⟩
  rw [openList]
  refine .peek rfl ?_
  rw [if_pos hkind]
  refine hn.bind (.present hcomma ?_)
  rw [if_pos rfl]
  exact .map (f := (a :: ·)) (hrest k (by simpa using hk))

end Lists

end Reading
end ShadowImpl
