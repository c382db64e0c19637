import ShadowImpl.Grammar.Generics
import ShadowImpl.Proofs.Runs

/-!
# The phrases of a predicate

A run of a reading is told here as a derivation: which phrases stand one behind the other
between two scans, and what they come to. A derivation has one rule for each form of syntax, and
none for the depth of a reading or for the order in which it looks at tokens, so what is shown
of all that can be read is shown by induction on it. Arguments that a turbofish replaces are a
phrase of their own.
-/

namespace ShadowImpl

open Reading

/-! ## Single tokens -/

/-- The scan `s'` comes behind `s` by taking the token `t` of class `κ`; then `e` is expected. -/
structure Scan.Shifts (s : Scan) (κ : Terminal) (e : Expectation) (t : Token) (s' : Scan) :
    Prop where
  next : s.next = .token t s'.rest
  kind : t.kind = κ
  taken : s'.taken = t :: s.taken
  expected : s'.expected = e

/-- A token of class `κ` may have been taken. -/
inductive Scan.Flag (κ : Terminal) (e : Expectation) : Scan → Bool → Scan → Prop
  | absent {s : Scan} (h : s.next.kind ≠ κ) : Flag κ e s false s
  | present {s s' : Scan} {t : Token} (h : s.Shifts κ e t s') : Flag κ e s true s'

/-- The lifetime of a reference, if it has one. -/
inductive Scan.RefLifetime : Scan → Option Lifetime → Scan → Prop
  | absent {s : Scan} (h : s.next.kind ≠ .lifetime) : RefLifetime s none s
  | present {s s' : Scan} {t : Token} (h : s.Shifts .lifetime Expected.mutOrType t s') :
    RefLifetime s (some ⟨String.ofList t.text⟩) s'

/-- The ABI of a function pointer, if it names one. -/
inductive Scan.Abi : Scan → Option String → Scan → Prop
  | absent {s : Scan} (h : s.next.kind ≠ .kwExtern) : Abi s none s
  | bare {s s' : Scan} {t : Token} (h : s.Shifts .kwExtern [.kwFn, .string] t s')
    (hbare : s'.next.kind ≠ .string) : Abi s (some "") s'
  | named {s s₁ s' : Scan} {t u : Token} (h : s.Shifts .kwExtern [.kwFn, .string] t s₁)
    (hname : s₁.Shifts .string [.kwFn] u s') : Abi s (some (String.ofList u.text)) s'

namespace Reading

variable {α β : Type} {s s' : Scan} {e : Expectation} {κ : Terminal} {b : β}

/-- A run that takes nothing. -/
theorem of_run_pure {a b : α} (h : (pure a : Reading α).run s = .ok (b, s')) : a = b ∧ s = s' := by
  simpa using h

/-- A run that takes whatever token stands next, and goes on from there. -/
theorem shifts_of_shift {f : String → Reading β} (h : (shift e >>= f).run s = .ok (b, s')) :
    ∃ t s₁, s.Shifts s.next.kind e t s₁ ∧ (f (String.ofList t.text)).run s₁ = .ok (b, s') := by
  obtain ⟨t, r, hnext, h⟩ := run_shift_bind_eq_ok.mp h
  exact ⟨t, _, ⟨hnext, (kind_of_token hnext).symm, rfl, rfl⟩, h⟩

/-- A run that takes a token of one class, and goes on from there. -/
theorem shifts_of_token {f : String → Reading β} (h : (token κ e >>= f).run s = .ok (b, s')) :
    ∃ t s₁, s.Shifts κ e t s₁ ∧ (f (String.ofList t.text)).run s₁ = .ok (b, s') := by
  obtain ⟨t, r, hnext, hkind, h⟩ := run_token_bind_eq_ok.mp h
  exact ⟨t, _, ⟨hnext, hkind, rfl, rfl⟩, h⟩

/-- A run that takes a token of one class if there is one, and goes on from there. -/
theorem flag_of_optional {f : Bool → Reading β} (h : (optional κ e >>= f).run s = .ok (b, s')) :
    ∃ c s₁, s.Flag κ e c s₁ ∧ (f c).run s₁ = .ok (b, s') := by
  rcases run_optional_bind_eq_ok.mp h with ⟨t, r, hnext, hkind, h⟩ | ⟨hkind, h⟩
  · exact ⟨true, _, .present ⟨hnext, hkind, rfl, rfl⟩, h⟩
  · exact ⟨false, _, .absent hkind, h⟩

/-- The name of an ABI may be left out behind `extern`. -/
theorem abi_of_fnAbi {abi : Option String} (h : Grammar.fnPtr.fnAbi.run s = .ok (abi, s')) :
    s.Abi abi s' := by
  rw [Grammar.fnPtr.fnAbi] at h
  obtain ⟨c, s₁, hflag, h⟩ := flag_of_optional h
  cases hflag with
  | absent hne =>
    obtain ⟨rfl, rfl⟩ : none = abi ∧ s = s' := by simpa using h
    exact .absent hne
  | present hextern =>
    rw [if_pos rfl, run_peek_bind] at h
    split at h
    · rename_i hstring
      obtain ⟨u, s₂, hshift, h⟩ := shifts_of_shift h
      obtain ⟨rfl, rfl⟩ : some (String.ofList u.text) = abi ∧ s₂ = s' := by simpa using h
      exact .named hextern (hstring ▸ hshift)
    · obtain ⟨rfl, rfl⟩ : some "" = abi ∧ s₁ = s' := by simpa using h
      exact .bare hextern ‹_›

end Reading

/-! ## Phrases -/

/-- The kinds of phrases. -/
inductive Phrase where
  | ty
  | path
  | segments
  | args
  | genericArg
  | fnArg
  | bound
  /-- A binder, or none. -/
  | binder
  | lifetime (e : Expectation)
  /-- A list with commas, up to and with the bracket `close`. -/
  | commas (k : Phrase) (close : Terminal) (e e' : Expectation)
  | pluses (k : Phrase) (e : Expectation)
  /-- A phrase behind the token `κ`, or nothing. -/
  | after (κ : Terminal) (e : Expectation) (k : Phrase)
  /-- A list with plus signs, or nothing. -/
  | orNone (k : Phrase) (e : Expectation)
  | predicate
  | predicates

namespace Phrase

/-- What a phrase comes to. -/
abbrev Value : Phrase → Type
  | ty => Ty
  | path => Path
  | segments => List Segment
  | args => Option PathArgs
  | genericArg => GenericArg
  | fnArg => FnArg
  | bound => Bound
  | binder => List Lifetime
  | lifetime _ => Lifetime
  | commas k _ _ _ => List k.Value
  | pluses k _ => List k.Value
  | after _ _ k => Option k.Value
  | orNone k _ => List k.Value
  | predicate => Predicate
  | predicates => List Predicate

/-- The lists in brackets. -/
inductive Bracketed : Phrase → Terminal → Expectation → Expectation → Prop
  | types : Bracketed .ty .rpar Expected.typeOrClose Expected.afterType
  | genericArgs : Bracketed .genericArg .gt Expected.genericArg Expected.afterType
  | fnArgs : Bracketed .fnArg .rpar Expected.typeOrClose Expected.afterType
  | lifetimes : Bracketed (.lifetime Expected.afterArg) .gt Expected.binderItem Expected.afterBinder

/-- The lists with plus signs. -/
inductive Summed : Phrase → Expectation → Prop
  | bounds : Summed .bound Expected.bound
  | lifetimes : Summed (.lifetime Expected.afterLifetime) [.lifetime]

/-- What may follow a part of a type. -/
inductive Optional : Terminal → Expectation → Phrase → Prop
  | asTrait : Optional .kwAs Expected.path .path
  | output : Optional .arrow Expected.type .ty

/-- Between the scans `s` and `s'` stands a phrase that comes to a value. -/
inductive Derives : (k : Phrase) → Scan → k.Value → Scan → Prop
  -- types
  | path {s s' p} (hp : Derives .path s p s') : Derives .ty s (.path p) s'
  | qualified {s s₁ s₂ s₃ s₄ s₅ s' t u v self asTrait segs}
    (hlt : s.Shifts .lt Expected.type t s₁) (hself : Derives .ty s₁ self s₂)
    (has : Derives (.after .kwAs Expected.path .path) s₂ asTrait s₃)
    (hgt : s₃.Shifts .gt [.pathSep] u s₄) (hsep : s₄.Shifts .pathSep Expected.name v s₅)
    (hsegs : Derives .segments s₅ segs s') :
    Derives .ty s (.qualified self asTrait ⟨segs, false⟩) s'
  | ref {s s₁ s₂ s₃ s' t l mutable elem} (hamp : s.Shifts .amp Expected.referent t s₁)
    (hl : s₁.RefLifetime l s₂) (hmut : s₂.Flag .kwMut Expected.type mutable s₃)
    (helem : Derives .ty s₃ elem s') : Derives .ty s (.ref l mutable elem) s'
  | ptr {s s₁ s₂ s' t u elem} (mutable : Bool) (hstar : s.Shifts .star Expected.pointerKind t s₁)
    (hkind : s₁.Shifts (if mutable then .kwMut else .kwConst) Expected.type u s₂)
    (helem : Derives .ty s₂ elem s') : Derives .ty s (.ptr mutable elem) s'
  | unit {s s₁ s' t u} (hopen : s.Shifts .lpar Expected.typeOrClose t s₁)
    (hclose : s₁.Shifts .rpar Expected.afterType u s') : Derives .ty s (.tuple []) s'
  | tuple {s s₁ s₂ s₃ s' t u elem elems} (hopen : s.Shifts .lpar Expected.typeOrClose t s₁)
    (helem : Derives .ty s₁ elem s₂) (hcomma : s₂.Shifts .comma Expected.typeOrClose u s₃)
    (helems : Derives (.commas .ty .rpar Expected.typeOrClose Expected.afterType) s₃ elems s') :
    Derives .ty s (.tuple (elem :: elems)) s'
  | paren {s s₁ s₂ s' t u elem} (hopen : s.Shifts .lpar Expected.typeOrClose t s₁)
    (helem : Derives .ty s₁ elem s₂) (hclose : s₂.Shifts .rpar Expected.afterType u s') :
    Derives .ty s (.paren elem) s'
  | slice {s s₁ s₂ s' t u elem} (hopen : s.Shifts .lsqb Expected.type t s₁)
    (helem : Derives .ty s₁ elem s₂) (hclose : s₂.Shifts .rsqb Expected.afterType u s') :
    Derives .ty s (.slice elem) s'
  | array {s s₁ s₂ s₃ s₄ s' t u v elem} (n : Nat) (hopen : s.Shifts .lsqb Expected.type t s₁)
    (helem : Derives .ty s₁ elem s₂) (hsemi : s₂.Shifts .semi Expected.anything u s₃)
    (hlength : (Grammar.someTrees [.comma, .semi] n).run s₃ = .ok ((), s₄))
    (hclose : s₄.Shifts .rsqb Expected.afterType v s') :
    Derives .ty s (.array elem (String.ofList (Text.trim (s₄.textFrom s₃.taken.length)))) s'
  | never {s s' t} (h : s.Shifts .bang Expected.afterType t s') : Derives .ty s .never s'
  | implTrait {s s₁ s' t bs} (himpl : s.Shifts .kwImpl Expected.bound t s₁)
    (hbs : Derives (.pluses .bound Expected.bound) s₁ bs s') : Derives .ty s (.implTrait bs) s'
  | dynTrait {s s₁ s' t bs} (hdyn : s.Shifts .kwDyn Expected.bound t s₁)
    (hbs : Derives (.pluses .bound Expected.bound) s₁ bs s') : Derives .ty s (.dynTrait bs) s'
  | fnPtr {s s₁ s₂ s₃ s₄ s₅ s₆ s' t u ls isUnsafe abi inputs output}
    (hls : Derives .binder s ls s₁) (hsafety : s₁.Flag .kwUnsafe [.kwExtern, .kwFn] isUnsafe s₂)
    (habi : s₂.Abi abi s₃) (hfn : s₃.Shifts .kwFn [.lpar] t s₄)
    (hopen : s₄.Shifts .lpar Expected.typeOrClose u s₅)
    (hinputs : Derives (.commas .fnArg .rpar Expected.typeOrClose Expected.afterType) s₅ inputs s₆)
    (houtput : Derives (.after .arrow Expected.type .ty) s₆ output s') :
    Derives .ty s (.fnPtr ls isUnsafe abi inputs output) s'
  -- paths
  | segments {s s₁ s' rooted segs} (hrooted : s.Flag .pathSep Expected.name rooted s₁)
    (hsegs : Derives .segments s₁ segs s') : Derives .path s ⟨segs, rooted⟩ s'
  | last {s s₁ s' e t args} (he : e ∈ [Expected.afterType, Expected.afterLabel])
    (hname : s.Shifts .ident e t s₁) (hargs : Derives .args s₁ args s')
    (hend : s'.next.kind ≠ .pathSep) : Derives .segments s [⟨String.ofList t.text, args⟩] s'
  | more {s s₁ s₂ s₃ s' e t u args segs} (he : e ∈ [Expected.afterType, Expected.afterLabel])
    (hname : s.Shifts .ident e t s₁) (hargs : Derives .args s₁ args s₂)
    (hsep : s₂.Shifts .pathSep Expected.pathPiece u s₃) (hsegs : Derives .segments s₃ segs s') :
    Derives .segments s (⟨String.ofList t.text, args⟩ :: segs) s'
  | noArgs {s} (h : s.next.kind ∉ [Terminal.lt, .lpar]) : Derives .args s none s
  | angle {s s₁ s' t as} (hopen : s.Shifts .lt Expected.genericArg t s₁)
    (has : Derives (.commas .genericArg .gt Expected.genericArg Expected.afterType) s₁ as s') :
    Derives .args s (some (.angle as false)) s'
  | call {s s₁ s₂ s' t inputs output} (hopen : s.Shifts .lpar Expected.typeOrClose t s₁)
    (hinputs : Derives (.commas .ty .rpar Expected.typeOrClose Expected.afterType) s₁ inputs s₂)
    (houtput : Derives (.after .arrow Expected.type .ty) s₂ output s') :
    Derives .args s (some (.paren inputs output)) s'
  /-- The turbofish takes the place of the arguments in front of it. -/
  | turbofish {s s₁ s₂ s₃ s' t u args as} (hargs : Derives .args s args s₁)
    (hsep : s₁.Shifts .pathSep Expected.pathPiece t s₂)
    (hopen : s₂.Shifts .lt Expected.genericArg u s₃)
    (has : Derives (.commas .genericArg .gt Expected.genericArg Expected.afterType) s₃ as s') :
    Derives .args s (some (.angle as true)) s'
  -- arguments
  | lifetimeArg {s s' l} (hl : Derives (.lifetime Expected.afterArg) s l s') :
    Derives .genericArg s (.lifetime l) s'
  | binding {s s₁ s₂ s' t u a} (hname : s.Shifts .ident Expected.afterLabel t s₁)
    (heq : s₁.Shifts .eq Expected.type u s₂) (ha : Derives .ty s₂ a s') :
    Derives .genericArg s (.binding (String.ofList t.text) a) s'
  | constraint {s s₁ s₂ s' t u bs} (hname : s.Shifts .ident Expected.afterLabel t s₁)
    (hcolon : s₁.Shifts .colon Expected.bound u s₂)
    (hbs : Derives (.pluses .bound Expected.bound) s₂ bs s') :
    Derives .genericArg s (.constraint (String.ofList t.text) bs) s'
  | constArg {s s' text} (n : Nat) (h : (Grammar.constText n).run s = .ok (text, s')) :
    Derives .genericArg s (.const text) s'
  | pathArg {s s' segs} (hsegs : Derives .segments s segs s') :
    Derives .genericArg s (.ty (.path ⟨segs, false⟩)) s'
  | tyArg {s s' a} (hne : s.next.kind ≠ .ident) (ha : Derives .ty s a s') :
    Derives .genericArg s (.ty a) s'
  | namedParam {s s₁ s₂ s' t u a} (hname : s.Shifts .ident Expected.afterLabel t s₁)
    (hcolon : s₁.Shifts .colon Expected.type u s₂) (ha : Derives .ty s₂ a s') :
    Derives .fnArg s ⟨some (String.ofList t.text), a⟩ s'
  | pathParam {s s' segs} (hsegs : Derives .segments s segs s') :
    Derives .fnArg s ⟨none, .path ⟨segs, false⟩⟩ s'
  | tyParam {s s' a} (hne : s.next.kind ≠ .ident) (ha : Derives .ty s a s') :
    Derives .fnArg s ⟨none, a⟩ s'
  -- bounds
  | outlives {s s' l} (hl : Derives (.lifetime Expected.afterType) s l s') :
    Derives .bound s (.lifetime l) s'
  | trait {s s₁ s₂ s' maybe ls p} (hmaybe : s.Flag .qmark Expected.relaxed maybe s₁)
    (hls : Derives .binder s₁ ls s₂) (hp : Derives .path s₂ p s') :
    Derives .bound s (.trait p maybe ls) s'
  | unbound {s} (h : s.next.kind ≠ .kwFor) : Derives .binder s [] s
  | bound {s s₁ s₂ s' t u ls} (hfor : s.Shifts .kwFor [.lt] t s₁)
    (hopen : s₁.Shifts .lt Expected.binderItem u s₂)
    (hls : Derives (.commas (.lifetime Expected.afterArg) .gt Expected.binderItem
      Expected.afterBinder) s₂ ls s') : Derives .binder s ls s'
  | lifetime {s s' e t} (h : s.Shifts .lifetime e t s') :
    Derives (.lifetime e) s ⟨String.ofList t.text⟩ s'
  -- lists
  | commasNil {s s' k close e e' t} (hk : Bracketed k close e e')
      (hclose : s.Shifts close e' t s') :
    Derives (.commas k close e e') s [] s'
  | commasLast {s s₁ s' k close e e' t a} (hk : Bracketed k close e e') (ha : Derives k s a s₁)
    (hclose : s₁.Shifts close e' t s') : Derives (.commas k close e e') s [a] s'
  | commasCons {s s₁ s₂ s' k close e e' t a as} (hk : Bracketed k close e e')
      (ha : Derives k s a s₁)
    (hcomma : s₁.Shifts .comma e t s₂) (has : Derives (.commas k close e e') s₂ as s') :
    Derives (.commas k close e e') s (a :: as) s'
  | plusesLast {s s' k e a} (hk : Summed k e) (ha : Derives k s a s')
      (hend : s'.next.kind ≠ .plus) :
    Derives (.pluses k e) s [a] s'
  | plusesCons {s s₁ s₂ s' k e t a as} (hk : Summed k e) (ha : Derives k s a s₁)
    (hplus : s₁.Shifts .plus e t s₂) (has : Derives (.pluses k e) s₂ as s') :
    Derives (.pluses k e) s (a :: as) s'
  | afterNone {s κ e k} (hk : Optional κ e k) (h : s.next.kind ≠ κ) :
      Derives (.after κ e k) s none s
  | afterSome {s s₁ s' κ e k t a} (hk : Optional κ e k) (h : s.Shifts κ e t s₁)
      (ha : Derives k s₁ a s') :
    Derives (.after κ e k) s (some a) s'
  | orNone {s k e} (hk : Summed k e) (h : s.next.kind ∉ e) : Derives (.orNone k e) s [] s
  | orSome {s s' k e as} (hk : Summed k e) (has : Derives (.pluses k e) s as s') :
    Derives (.orNone k e) s as s'
  -- predicates
  | tyPredicate {s s₁ s₂ s' t a bs} (ha : Derives .ty s a s₁)
    (hcolon : s₁.Shifts .colon Expected.predicateBound t s₂)
    (hbs : Derives (.orNone .bound Expected.bound) s₂ bs s') :
    Derives .predicate s (.type a bs []) s'
  | boundPredicate {s s₁ s₂ s₃ s' t a ls bs} (hls : Derives .binder s ls s₁)
    (hne : s₁.next.kind ∉ [Terminal.kwFor, .kwUnsafe, .kwExtern, .kwFn]) (ha : Derives .ty s₁ a s₂)
    (hcolon : s₂.Shifts .colon Expected.predicateBound t s₃)
    (hbs : Derives (.orNone .bound Expected.bound) s₃ bs s') :
    Derives .predicate s (.type a bs ls) s'
  | lifetimePredicate {s s₁ s₂ s' t l ls} (hl : Derives (.lifetime [.colon]) s l s₁)
    (hcolon : s₁.Shifts .colon Expected.predicateLifetime t s₂)
    (hls : Derives (.orNone (.lifetime Expected.afterLifetime) [.lifetime]) s₂ ls s') :
    Derives .predicate s (.lifetime l ls) s'
  | predicatesNil {s} (h : s.next.kind ∉ Expected.predicate) : Derives .predicates s [] s
  | predicatesLast {s s' p} (hp : Derives .predicate s p s') (hend : s'.next.kind ≠ .comma) :
    Derives .predicates s [p] s'
  | predicatesCons {s s₁ s₂ s' t p ps} (hp : Derives .predicate s p s₁)
    (hcomma : s₁.Shifts .comma Expected.predicate t s₂) (hps : Derives .predicates s₂ ps s') :
    Derives .predicates s (p :: ps) s'

end Phrase

/-! ## Every run is derived -/

namespace Grammar

open Phrase

variable {n : Nat} {s s' s₀ s₁ : Scan} {e e' : Expectation} {close : Terminal} {k : Phrase}

/-- A list in brackets is derived as its elements are. -/
theorem commaList_derives {element : Reading k.Value} {as : List k.Value}
    (hk : Bracketed k close e e')
    (helement : ∀ {s a s'}, element.run s = .ok (a, s') → Derives k s a s')
    (h : (commaList close e e' element n).run s = .ok (as, s')) :
    Derives (.commas k close e e') s as s' := by
  induction n generalizing s as with
  | zero => simp [commaList] at h
  | succ n ih =>
    rw [commaList] at h
    -- By induction on the fuel, which each element takes one of: an end, an element and a comma, or
    -- the last one.
    obtain ⟨closed, s₁, hclosed, h⟩ := flag_of_optional h
    cases hclosed with
    | present hclose =>
      obtain ⟨rfl, rfl⟩ := of_run_pure h
      exact .commasNil hk hclose
    | absent =>
      obtain ⟨a, s₂, ha, h⟩ := run_bind_eq_ok.mp h
      obtain ⟨more, s₃, hmore, h⟩ := flag_of_optional h
      cases hmore with
      | present hcomma =>
        obtain ⟨as', s₄, has, h⟩ := run_bind_eq_ok.mp h
        obtain ⟨rfl, rfl⟩ := of_run_pure h
        exact .commasCons hk (helement ha) hcomma (ih has)
      | absent =>
        obtain ⟨t, s₄, hclose, h⟩ := shifts_of_token h
        obtain ⟨rfl, rfl⟩ := of_run_pure h
        exact .commasLast hk (helement ha) hclose

/-- A list with `+` between its elements is derived as they are. -/
theorem plusList_derives {element : Reading k.Value} {as : List k.Value} (hk : Summed k e)
    (helement : ∀ {s a s'}, element.run s = .ok (a, s') → Derives k s a s')
    (h : (plusList e element n).run s = .ok (as, s')) : Derives (.pluses k e) s as s' := by
  induction n generalizing s as with
  | zero => simp [plusList] at h
  | succ n ih =>
    rw [plusList] at h
    obtain ⟨a, s₁, ha, h⟩ := run_bind_eq_ok.mp h
    obtain ⟨more, s₂, hmore, h⟩ := flag_of_optional h
    cases hmore with
    | present hplus =>
      obtain ⟨as', s₃, has, h⟩ := run_bind_eq_ok.mp h
      obtain ⟨rfl, rfl⟩ := of_run_pure h
      exact .plusesCons hk (helement ha) hplus (ih has)
    | absent hend =>
      obtain ⟨rfl, rfl⟩ := of_run_pure h
      exact .plusesLast hk (helement ha) hend

theorem lifetime_derives {l : Lifetime}
    (h : (do return Lifetime.mk (← token .lifetime e)).run s = .ok (l, s')) :
    Derives (.lifetime e) s l s' := by
  obtain ⟨t, s₁, hl, h⟩ := shifts_of_token h
  obtain ⟨rfl, rfl⟩ := of_run_pure h
  exact .lifetime hl

/-- A binder is its list of lifetimes. -/
theorem binder_derives {ls : List Lifetime} (h : (binder n).run s = .ok (ls, s')) :
    Derives .binder s ls s' := by
  rw [binder] at h
  obtain ⟨t, s₁, hfor, h⟩ := shifts_of_token h
  obtain ⟨u, s₂, hopen, h⟩ := shifts_of_token h
  exact .bound hfor hopen (commaList_derives .lifetimes lifetime_derives h)

/-- What each reading of a type or of a part of one takes is derived, at depth `n`. A function
pointer is read behind its binder, and what follows a name in a path behind that name. -/
structure TypesDerived (n : Nat) : Prop where
  ty : ∀ {s t s'}, (ty n).run s = .ok (t, s') → Derives .ty s t s'
  bareTy : ∀ {s t s'}, (bareTy n).run s = .ok (t, s') → Derives .ty s t s'
  plainTy : ∀ {s t s'}, (plainTy n).run s = .ok (t, s') →
    Derives .ty s t s' ∧ s.next.kind ∉ [Terminal.kwFor, .kwUnsafe, .kwExtern, .kwFn]
  qualifiedTy : ∀ {s t s'}, (qualifiedTy n).run s = .ok (t, s') → Derives .ty s t s'
  asPath : ∀ {s p s'}, (asPath n).run s = .ok (p, s') →
    Derives (.after .kwAs Expected.path .path) s p s'
  refTy : ∀ {s t s'}, (refTy n).run s = .ok (t, s') → Derives .ty s t s'
  ptrTy : ∀ {s t s'}, (ptrTy n).run s = .ok (t, s') → Derives .ty s t s'
  parenTy : ∀ {s t s'}, (parenTy n).run s = .ok (t, s') → Derives .ty s t s'
  types : ∀ {s ts s'}, (types n).run s = .ok (ts, s') →
    Derives (.commas .ty .rpar Expected.typeOrClose Expected.afterType) s ts s'
  bracketTy : ∀ {s t s'}, (bracketTy n).run s = .ok (t, s') → Derives .ty s t s'
  fnPtr : ∀ {ls s t s'}, (fnPtr ls n).run s = .ok (t, s') → ∀ {s₀}, Derives .binder s₀ ls s →
    Derives .ty s₀ t s'
  fnArg : ∀ {s a s'}, (fnArg n).run s = .ok (a, s') → Derives .fnArg s a s'
  returnTy : ∀ {s t s'}, (returnTy n).run s = .ok (t, s') →
    Derives (.after .arrow Expected.type .ty) s t s'
  path : ∀ {s p s'}, (path n).run s = .ok (p, s') → Derives .path s p s'
  segments : ∀ {s segs s'}, (segments n).run s = .ok (segs, s') → Derives .segments s segs s'
  segmentsFrom : ∀ {t : Token} {s segs s'},
    (segmentsFrom (String.ofList t.text) n).run s = .ok (segs, s') →
      ∀ {s₀ e}, e ∈ [Expected.afterType, Expected.afterLabel] → s₀.Shifts .ident e t s →
        Derives .segments s₀ segs s'
  moreSegments : ∀ {t : Token} {args s segs s'},
    (moreSegments ⟨String.ofList t.text, args⟩ n).run s = .ok (segs, s') →
      ∀ {s₀ s₁ e}, e ∈ [Expected.afterType, Expected.afterLabel] → s₀.Shifts .ident e t s₁ →
        Derives .args s₁ args s → Derives .segments s₀ segs s'
  segmentArgs : ∀ {s args s'}, (segmentArgs n).run s = .ok (args, s') → Derives .args s args s'
  angleArgs : ∀ {s as s'}, (angleArgs n).run s = .ok (as, s') → ∃ t s₁,
    s.Shifts .lt Expected.genericArg t s₁ ∧
      Derives (.commas .genericArg .gt Expected.genericArg Expected.afterType) s₁ as s'
  genericArg : ∀ {s a s'}, (genericArg n).run s = .ok (a, s') → Derives .genericArg s a s'
  bounds : ∀ {s bs s'}, (bounds n).run s = .ok (bs, s') →
    Derives (.pluses .bound Expected.bound) s bs s'
  bound : ∀ {s b s'}, (bound n).run s = .ok (b, s') → Derives .bound s b s'
  traitBound : ∀ {maybe s b s'}, (traitBound maybe n).run s = .ok (b, s') → ∃ ls p s₁,
    b = .trait p maybe ls ∧ Derives .binder s ls s₁ ∧ Derives .path s₁ p s'

namespace TypesDerived

variable (ih : TypesDerived n)

include ih

theorem ty_succ {t : Ty} (h : (Grammar.ty (n + 1)).run s = .ok (t, s')) : Derives .ty s t s' := by
  rw [Grammar.ty, run_peek_bind] at h
  split at h
  · exact ih.qualifiedTy h
  · exact ih.bareTy h

/-- A type without a qualified self may be a function type, be it behind a binder or not. -/
theorem bareTy_succ {t : Ty} (h : (Grammar.bareTy (n + 1)).run s = .ok (t, s')) :
    Derives .ty s t s' := by
  rw [Grammar.bareTy, run_peek_bind] at h
  split at h
  · obtain ⟨ls, s₁, hls, h⟩ := run_bind_eq_ok.mp h
    exact ih.fnPtr h (binder_derives hls)
  · exact ih.fnPtr h (.unbound (by simp_all))
  · exact ih.fnPtr h (.unbound (by simp_all))
  · exact ih.fnPtr h (.unbound (by simp_all))
  · exact (ih.plainTy h).1

/-- The other types are told by their first token, which none of the function types has. -/
theorem plainTy_succ {t : Ty} (h : (Grammar.plainTy (n + 1)).run s = .ok (t, s')) :
    Derives .ty s t s' ∧ s.next.kind ∉ [Terminal.kwFor, .kwUnsafe, .kwExtern, .kwFn] := by
  have hpath : (do return Ty.path (← Grammar.path n)).run s = .ok (t, s') → Derives .ty s t s' := by
    intro h
    obtain ⟨p, s₁, hp, h⟩ := run_bind_eq_ok.mp h
    obtain ⟨rfl, rfl⟩ := of_run_pure h
    exact .path (ih.path hp)
  rw [Grammar.plainTy, run_peek_bind] at h
  -- The cases come in the order in which the grammar asks for the first token.
  split at h
  all_goals rename_i hk
  · exact ⟨hpath h, by simp [hk]⟩
  · exact ⟨hpath h, by simp [hk]⟩
  · exact ⟨ih.refTy h, by simp [hk]⟩
  · exact ⟨ih.ptrTy h, by simp [hk]⟩
  · exact ⟨ih.parenTy h, by simp [hk]⟩
  · exact ⟨ih.bracketTy h, by simp [hk]⟩
  · obtain ⟨u, s₁, hbang, h⟩ := shifts_of_shift h
    obtain ⟨rfl, rfl⟩ := of_run_pure h
    exact ⟨.never (hk ▸ hbang), by simp [hk]⟩
  · obtain ⟨u, s₁, himpl, h⟩ := shifts_of_shift h
    obtain ⟨bs, s₂, hbs, h⟩ := run_bind_eq_ok.mp h
    obtain ⟨rfl, rfl⟩ := of_run_pure h
    exact ⟨.implTrait (hk ▸ himpl) (ih.bounds hbs), by simp [hk]⟩
  · obtain ⟨u, s₁, hdyn, h⟩ := shifts_of_shift h
    obtain ⟨bs, s₂, hbs, h⟩ := run_bind_eq_ok.mp h
    obtain ⟨rfl, rfl⟩ := of_run_pure h
    exact ⟨.dynTrait (hk ▸ hdyn) (ih.bounds hbs), by simp [hk]⟩
  · simp at h

theorem qualifiedTy_succ {t : Ty} (h : (Grammar.qualifiedTy (n + 1)).run s = .ok (t, s')) :
    Derives .ty s t s' := by
  rw [Grammar.qualifiedTy] at h
  obtain ⟨o, s₁, hlt, h⟩ := shifts_of_token h
  obtain ⟨self, s₂, hself, h⟩ := run_bind_eq_ok.mp h
  obtain ⟨asTrait, s₃, has, h⟩ := run_bind_eq_ok.mp h
  obtain ⟨c, s₄, hgt, h⟩ := shifts_of_token h
  obtain ⟨u, s₅, hsep, h⟩ := shifts_of_token h
  obtain ⟨segs, s₆, hsegs, h⟩ := run_bind_eq_ok.mp h
  obtain ⟨rfl, rfl⟩ := of_run_pure h
  exact .qualified hlt (ih.ty hself) (ih.asPath has) hgt hsep (ih.segments hsegs)

/-- The trait of a qualified path may be left out. -/
theorem asPath_succ {p : Option Path} (h : (Grammar.asPath (n + 1)).run s = .ok (p, s')) :
    Derives (.after .kwAs Expected.path .path) s p s' := by
  rw [Grammar.asPath] at h
  obtain ⟨c, s₁, hflag, h⟩ := flag_of_optional h
  cases hflag with
  | present has =>
    obtain ⟨p', s₂, hp, h⟩ := run_bind_eq_ok.mp h
    obtain ⟨rfl, rfl⟩ := of_run_pure h
    exact .afterSome .asTrait has (ih.path hp)
  | absent hne =>
    obtain ⟨rfl, rfl⟩ := of_run_pure h
    exact .afterNone .asTrait hne

theorem refTy_succ {t : Ty} (h : (Grammar.refTy (n + 1)).run s = .ok (t, s')) :
    Derives .ty s t s' := by
  rw [Grammar.refTy] at h
  obtain ⟨u, s₁, hamp, h⟩ := shifts_of_token h
  have hrest : ∀ {l s₂}, s₁.RefLifetime l s₂ →
      (optional .kwMut Expected.type >>= fun mutable => Grammar.ty n >>= fun elem =>
        pure (Ty.ref l mutable elem)).run s₂ = .ok (t, s') → Derives .ty s t s' := by
    intro l s₂ hl h
    obtain ⟨mutable, s₃, hmut, h⟩ := flag_of_optional h
    obtain ⟨elem, s₄, helem, h⟩ := run_bind_eq_ok.mp h
    obtain ⟨rfl, rfl⟩ := of_run_pure h
    exact .ref hamp hl hmut (ih.ty helem)
  rw [run_peek_bind] at h
  split at h
  · rename_i hk
    obtain ⟨v, s₂, hl, h⟩ := shifts_of_shift h
    exact hrest (.present (hk ▸ hl)) h
  · exact hrest (.absent ‹_›) h

theorem ptrTy_succ {t : Ty} (h : (Grammar.ptrTy (n + 1)).run s = .ok (t, s')) :
    Derives .ty s t s' := by
  rw [Grammar.ptrTy] at h
  obtain ⟨u, s₁, hstar, h⟩ := shifts_of_token h
  obtain ⟨c, s₂, hflag, h⟩ := flag_of_optional h
  cases hflag with
  | present hmut =>
    obtain ⟨elem, s₃, helem, h⟩ := run_bind_eq_ok.mp h
    obtain ⟨rfl, rfl⟩ := of_run_pure h
    exact .ptr true hstar hmut (ih.ty helem)
  | absent =>
    obtain ⟨v, s₃, hconst, h⟩ := shifts_of_token h
    obtain ⟨elem, s₄, helem, h⟩ := run_bind_eq_ok.mp h
    obtain ⟨rfl, rfl⟩ := of_run_pure h
    exact .ptr false hstar hconst (ih.ty helem)

theorem parenTy_succ {t : Ty} (h : (Grammar.parenTy (n + 1)).run s = .ok (t, s')) :
    Derives .ty s t s' := by
  rw [Grammar.parenTy] at h
  obtain ⟨u, s₁, hopen, h⟩ := shifts_of_token h
  obtain ⟨c, s₂, hflag, h⟩ := flag_of_optional h
  cases hflag with
  | present hclose =>
    obtain ⟨rfl, rfl⟩ := of_run_pure h
    exact .unit hopen hclose
  | absent =>
    obtain ⟨head, s₃, hhead, h⟩ := run_bind_eq_ok.mp h
    obtain ⟨c, s₄, hflag, h⟩ := flag_of_optional h
    cases hflag with
    | present hcomma =>
      obtain ⟨ts, s₅, hts, h⟩ := run_bind_eq_ok.mp h
      obtain ⟨rfl, rfl⟩ := of_run_pure h
      exact .tuple hopen (ih.ty hhead) hcomma (ih.types hts)
    | absent =>
      obtain ⟨v, s₅, hclose, h⟩ := shifts_of_token h
      obtain ⟨rfl, rfl⟩ := of_run_pure h
      exact .paren hopen (ih.ty hhead) hclose

theorem bracketTy_succ {t : Ty} (h : (Grammar.bracketTy (n + 1)).run s = .ok (t, s')) :
    Derives .ty s t s' := by
  rw [Grammar.bracketTy] at h
  obtain ⟨u, s₁, hopen, h⟩ := shifts_of_token h
  obtain ⟨elem, s₂, helem, h⟩ := run_bind_eq_ok.mp h
  obtain ⟨c, s₃, hflag, h⟩ := flag_of_optional h
  cases hflag with
  | present hclose =>
    obtain ⟨rfl, rfl⟩ := of_run_pure h
    exact .slice hopen (ih.ty helem) hclose
  | absent =>
    obtain ⟨v, s₃, hsemi, h⟩ := shifts_of_token h
    rw [run_mark_bind] at h
    obtain ⟨⟨⟩, s₄, hlength, h⟩ := run_bind_eq_ok.mp h
    rw [run_textFrom_bind] at h
    obtain ⟨w, s₅, hclose, h⟩ := shifts_of_token h
    obtain ⟨rfl, rfl⟩ := of_run_pure h
    rw [String.toList_ofList]
    exact .array n hopen (ih.ty helem) hsemi hlength hclose

/-- A function type is derived from where its binder starts, which has been read before it. -/
theorem fnPtr_succ {ls : List Lifetime} {t : Ty}
    (h : (Grammar.fnPtr ls (n + 1)).run s = .ok (t, s')) (hls : Derives .binder s₀ ls s) :
    Derives .ty s₀ t s' := by
  rw [Grammar.fnPtr] at h
  obtain ⟨isUnsafe, s₁, hflag, h⟩ := flag_of_optional h
  obtain ⟨abi, s₂, habi, h⟩ := run_bind_eq_ok.mp h
  obtain ⟨u, s₃, hfn, h⟩ := shifts_of_token h
  obtain ⟨v, s₄, hopen, h⟩ := shifts_of_token h
  obtain ⟨inputs, s₅, hinputs, h⟩ := run_bind_eq_ok.mp h
  obtain ⟨output, s₆, houtput, h⟩ := run_bind_eq_ok.mp h
  obtain ⟨rfl, rfl⟩ := of_run_pure h
  exact .fnPtr hls hflag (abi_of_fnAbi habi) hfn hopen (commaList_derives .fnArgs ih.fnArg hinputs)
    (ih.returnTy houtput)

theorem fnArg_succ {a : FnArg} (h : (Grammar.fnArg (n + 1)).run s = .ok (a, s')) :
    Derives .fnArg s a s' := by
  rw [Grammar.fnArg, run_peek_bind] at h
  split at h
  · rename_i hk
    obtain ⟨t, s₁, hname, h⟩ := shifts_of_shift h
    obtain ⟨c, s₂, hflag, h⟩ := flag_of_optional h
    cases hflag with
    | present hcolon =>
      obtain ⟨a', s₃, ha, h⟩ := run_bind_eq_ok.mp h
      obtain ⟨rfl, rfl⟩ := of_run_pure h
      exact .namedParam (hk ▸ hname) hcolon (ih.ty ha)
    | absent =>
      obtain ⟨segs, s₃, hsegs, h⟩ := run_bind_eq_ok.mp h
      obtain ⟨rfl, rfl⟩ := of_run_pure h
      exact .pathParam (ih.segmentsFrom hsegs (by simp) (hk ▸ hname))
  · obtain ⟨a', s₁, ha, h⟩ := run_bind_eq_ok.mp h
    obtain ⟨rfl, rfl⟩ := of_run_pure h
    exact .tyParam ‹_› (ih.ty ha)

theorem returnTy_succ {t : Option Ty} (h : (Grammar.returnTy (n + 1)).run s = .ok (t, s')) :
    Derives (.after .arrow Expected.type .ty) s t s' := by
  rw [Grammar.returnTy] at h
  obtain ⟨c, s₁, hflag, h⟩ := flag_of_optional h
  cases hflag with
  | present harrow =>
    obtain ⟨t', s₂, ht, h⟩ := run_bind_eq_ok.mp h
    obtain ⟨rfl, rfl⟩ := of_run_pure h
    exact .afterSome .output harrow (ih.ty ht)
  | absent hne =>
    obtain ⟨rfl, rfl⟩ := of_run_pure h
    exact .afterNone .output hne

theorem path_succ {p : Path} (h : (Grammar.path (n + 1)).run s = .ok (p, s')) :
    Derives .path s p s' := by
  rw [Grammar.path] at h
  obtain ⟨rooted, s₁, hflag, h⟩ := flag_of_optional h
  obtain ⟨segs, s₂, hsegs, h⟩ := run_bind_eq_ok.mp h
  obtain ⟨rfl, rfl⟩ := of_run_pure h
  exact .segments hflag (ih.segments hsegs)

theorem segments_succ {segs : List Segment}
    (h : (Grammar.segments (n + 1)).run s = .ok (segs, s')) : Derives .segments s segs s' := by
  rw [Grammar.segments] at h
  obtain ⟨t, s₁, hname, h⟩ := shifts_of_token h
  exact ih.segmentsFrom h (by simp) hname

/-- Where a name has been taken already, the segments are derived from in front of it. -/
theorem segmentsFrom_succ {t : Token} {segs : List Segment}
    (h : (Grammar.segmentsFrom (String.ofList t.text) (n + 1)).run s = .ok (segs, s'))
    (he : e ∈ [Expected.afterType, Expected.afterLabel]) (hname : s₀.Shifts .ident e t s) :
    Derives .segments s₀ segs s' := by
  rw [Grammar.segmentsFrom] at h
  obtain ⟨args, s₁, hargs, h⟩ := run_bind_eq_ok.mp h
  exact ih.moreSegments h he hname (ih.segmentArgs hargs)

/-- So they are where the arguments of the first segment have been read as well. If a `::` and an
opening bracket follow, these arguments are dropped and others take their place. -/
theorem moreSegments_succ {t : Token} {args : Option PathArgs} {segs : List Segment}
    (h : (Grammar.moreSegments ⟨String.ofList t.text, args⟩ (n + 1)).run s = .ok (segs, s'))
    (he : e ∈ [Expected.afterType, Expected.afterLabel]) (hname : s₀.Shifts .ident e t s₁)
    (hargs : Derives .args s₁ args s) : Derives .segments s₀ segs s' := by
  rw [Grammar.moreSegments] at h
  obtain ⟨c, s₂, hflag, h⟩ := flag_of_optional h
  cases hflag with
  | present hsep =>
    rw [if_pos rfl, run_peek_bind] at h
    split at h
    · obtain ⟨as, s₃, has, h⟩ := run_bind_eq_ok.mp h
      obtain ⟨u, s₄, hopen, has⟩ := ih.angleArgs has
      exact ih.moreSegments h he hname (.turbofish hargs hsep hopen has)
    · obtain ⟨segs', s₃, hsegs, h⟩ := run_bind_eq_ok.mp h
      obtain ⟨rfl, rfl⟩ := of_run_pure h
      exact .more he hname hargs hsep (ih.segments hsegs)
  | absent hend =>
    obtain ⟨rfl, rfl⟩ := of_run_pure h
    exact .last he hname hargs hend

theorem segmentArgs_succ {args : Option PathArgs}
    (h : (Grammar.segmentArgs (n + 1)).run s = .ok (args, s')) : Derives .args s args s' := by
  rw [Grammar.segmentArgs, run_peek_bind] at h
  split at h
  · obtain ⟨as, s₁, has, h⟩ := run_bind_eq_ok.mp h
    obtain ⟨rfl, rfl⟩ := of_run_pure h
    obtain ⟨t, s₂, hopen, has⟩ := ih.angleArgs has
    exact .angle hopen has
  · rename_i hk
    obtain ⟨t, s₁, hopen, h⟩ := shifts_of_shift h
    obtain ⟨inputs, s₂, hinputs, h⟩ := run_bind_eq_ok.mp h
    obtain ⟨output, s₃, houtput, h⟩ := run_bind_eq_ok.mp h
    obtain ⟨rfl, rfl⟩ := of_run_pure h
    exact .call (hk ▸ hopen) (ih.types hinputs) (ih.returnTy houtput)
  · obtain ⟨rfl, rfl⟩ := of_run_pure h
    exact .noArgs (by simp_all)

/-- The bracket in front is no part of the list of arguments. -/
theorem angleArgs_succ {as : List GenericArg}
    (h : (Grammar.angleArgs (n + 1)).run s = .ok (as, s')) :
    ∃ t s₁, s.Shifts .lt Expected.genericArg t s₁ ∧
      Derives (.commas .genericArg .gt Expected.genericArg Expected.afterType) s₁ as s' := by
  rw [Grammar.angleArgs] at h
  obtain ⟨t, s₁, hopen, h⟩ := shifts_of_token h
  exact ⟨t, s₁, hopen, commaList_derives .genericArgs ih.genericArg h⟩

theorem genericArg_succ {a : GenericArg} (h : (Grammar.genericArg (n + 1)).run s = .ok (a, s')) :
    Derives .genericArg s a s' := by
  have hconst : (do return GenericArg.const (← constText n)).run s = .ok (a, s') →
      Derives .genericArg s a s' := by
    intro h
    obtain ⟨text, s₁, htext, h⟩ := run_bind_eq_ok.mp h
    obtain ⟨rfl, rfl⟩ := of_run_pure h
    exact .constArg n htext
  rw [Grammar.genericArg, run_peek_bind] at h
  split at h
  · rename_i hk
    obtain ⟨t, s₁, hl, h⟩ := shifts_of_shift h
    obtain ⟨rfl, rfl⟩ := of_run_pure h
    exact .lifetimeArg (.lifetime (hk ▸ hl))
  · rename_i hk
    obtain ⟨t, s₁, hname, h⟩ := shifts_of_shift h
    rw [hk] at hname
    -- What follows a name tells what it names.
    rw [run_peek_bind] at h
    split at h
    · rename_i hk
      obtain ⟨u, s₂, heq, h⟩ := shifts_of_shift h
      obtain ⟨a', s₃, ha, h⟩ := run_bind_eq_ok.mp h
      obtain ⟨rfl, rfl⟩ := of_run_pure h
      exact .binding hname (hk ▸ heq) (ih.ty ha)
    · rename_i hk
      obtain ⟨u, s₂, hcolon, h⟩ := shifts_of_shift h
      obtain ⟨bs, s₃, hbs, h⟩ := run_bind_eq_ok.mp h
      obtain ⟨rfl, rfl⟩ := of_run_pure h
      exact .constraint hname (hk ▸ hcolon) (ih.bounds hbs)
    · obtain ⟨segs, s₂, hsegs, h⟩ := run_bind_eq_ok.mp h
      obtain ⟨rfl, rfl⟩ := of_run_pure h
      exact .pathArg (ih.segmentsFrom hsegs (by simp) hname)
  -- The five classes that a constant can begin with
  iterate 5 exact hconst h
  · obtain ⟨a', s₁, ha, h⟩ := run_bind_eq_ok.mp h
    obtain ⟨rfl, rfl⟩ := of_run_pure h
    exact .tyArg ‹_› (ih.ty ha)

theorem bound_succ {b : Bound} (h : (Grammar.bound (n + 1)).run s = .ok (b, s')) :
    Derives .bound s b s' := by
  rw [Grammar.bound, run_peek_bind] at h
  split at h
  · rename_i hk
    obtain ⟨t, s₁, hl, h⟩ := shifts_of_shift h
    obtain ⟨rfl, rfl⟩ := of_run_pure h
    exact .outlives (.lifetime (hk ▸ hl))
  · rename_i hk
    obtain ⟨t, s₁, hmaybe, h⟩ := shifts_of_shift h
    obtain ⟨ls, p, s₂, rfl, hls, hp⟩ := ih.traitBound h
    exact .trait (.present (hk ▸ hmaybe)) hls hp
  · obtain ⟨ls, p, s₂, rfl, hls, hp⟩ := ih.traitBound h
    exact .trait (.absent ‹_›) hls hp

/-- The parts of a bound: the sign in front has been read before. -/
theorem traitBound_succ {maybe : Bool} {b : Bound}
    (h : (Grammar.traitBound maybe (n + 1)).run s = .ok (b, s')) : ∃ ls p s₁,
      b = .trait p maybe ls ∧ Derives .binder s ls s₁ ∧ Derives .path s₁ p s' := by
  rw [Grammar.traitBound, run_peek_bind] at h
  split at h
  · obtain ⟨ls, s₁, hls, h⟩ := run_bind_eq_ok.mp h
    obtain ⟨p, s₂, hp, h⟩ := run_bind_eq_ok.mp h
    obtain ⟨rfl, rfl⟩ := of_run_pure h
    exact ⟨ls, p, s₁, rfl, binder_derives hls, ih.path hp⟩
  · obtain ⟨p, s₁, hp, h⟩ := run_bind_eq_ok.mp h
    obtain ⟨rfl, rfl⟩ := of_run_pure h
    exact ⟨[], p, s, rfl, .unbound ‹_›, ih.path hp⟩

omit ih in
/-- All readings of types at once, by induction on the depth they are allowed. -/
theorem all (n : Nat) : TypesDerived n := by
  induction n with
  | zero =>
    constructor <;> intros <;>
      simp_all [Grammar.ty, Grammar.bareTy, Grammar.plainTy, Grammar.qualifiedTy, Grammar.asPath,
        Grammar.refTy, Grammar.ptrTy, Grammar.parenTy, Grammar.types, Grammar.bracketTy,
        Grammar.fnPtr, Grammar.fnArg, Grammar.returnTy, Grammar.path, Grammar.segments,
        Grammar.segmentsFrom, Grammar.moreSegments, Grammar.segmentArgs, Grammar.angleArgs,
        Grammar.genericArg, Grammar.bounds, Grammar.bound, Grammar.traitBound]
  | succ n ih => exact {
    ty := ih.ty_succ
    bareTy := ih.bareTy_succ
    plainTy := ih.plainTy_succ
    qualifiedTy := ih.qualifiedTy_succ
    asPath := ih.asPath_succ
    refTy := ih.refTy_succ
    ptrTy := ih.ptrTy_succ
    parenTy := ih.parenTy_succ
    types := commaList_derives .types ih.ty
    bracketTy := ih.bracketTy_succ
    fnPtr := fun h => ih.fnPtr_succ h
    fnArg := ih.fnArg_succ
    returnTy := ih.returnTy_succ
    path := ih.path_succ
    segments := ih.segments_succ
    segmentsFrom := fun h => ih.segmentsFrom_succ h
    moreSegments := fun h => ih.moreSegments_succ h
    segmentArgs := ih.segmentArgs_succ
    angleArgs := ih.angleArgs_succ
    genericArg := ih.genericArg_succ
    bounds := plusList_derives .bounds ih.bound
    bound := ih.bound_succ
    traitBound := ih.traitBound_succ }

end TypesDerived

/-- Predicates that are read are derived, by the three forms they have. -/
theorem predicate_derives {p : Predicate} (h : (predicate n).run s = .ok (p, s')) :
    Derives .predicate s p s' := by
  have htypes := TypesDerived.all n
  have hrest : ∀ {s₁ a ls}, (token .colon Expected.predicateBound >>=
      fun _ => boundsOrNone n >>= fun bs =>
      pure (Predicate.type a bs ls)).run s₁ = .ok (p, s') → ∃ t s₂ bs, p = .type a bs ls ∧
        s₁.Shifts .colon Expected.predicateBound t s₂ ∧
        Derives (.orNone .bound Expected.bound) s₂ bs s' := by
    intro s₁ a ls h
    obtain ⟨t, s₂, hcolon, h⟩ := shifts_of_token h
    obtain ⟨bs, s₃, hbs, h⟩ := run_bind_eq_ok.mp h
    obtain ⟨rfl, rfl⟩ := of_run_pure h
    refine ⟨t, s₂, bs, rfl, hcolon, ?_⟩
    rw [boundsOrNone, run_peek_bind] at hbs
    split at hbs
    · exact .orSome .bounds (htypes.bounds hbs)
    · obtain ⟨rfl, rfl⟩ := of_run_pure hbs
      exact .orNone .bounds (mt List.contains_iff_mem.mpr ‹_›)
  rw [predicate, run_peek_bind] at h
  split at h
  · rename_i hk
    obtain ⟨t, s₁, hl, h⟩ := shifts_of_shift h
    obtain ⟨u, s₂, hcolon, h⟩ := shifts_of_token h
    obtain ⟨ls, s₃, hls, h⟩ := run_bind_eq_ok.mp h
    obtain ⟨rfl, rfl⟩ := of_run_pure h
    refine .lifetimePredicate (.lifetime (hk ▸ hl)) hcolon ?_
    rw [lifetimesOrNone, run_peek_bind] at hls
    split at hls
    · exact .orSome .lifetimes (plusList_derives .lifetimes lifetime_derives hls)
    · obtain ⟨rfl, rfl⟩ := of_run_pure hls
      exact .orNone .lifetimes (by simpa using ‹_›)
  · obtain ⟨⟨a, ls⟩, s₁, hsubject, h⟩ := run_bind_eq_ok.mp h
    obtain ⟨t, s₂, bs, rfl, hcolon, hbs⟩ := hrest h
    rw [subject, run_peek_bind] at hsubject
    split at hsubject
    · obtain ⟨ls', s₃, hls, hsubject⟩ := run_bind_eq_ok.mp hsubject
      have hls := binder_derives hls
      rw [run_peek_bind] at hsubject
      split at hsubject
      -- in front of a function pointer the binder is a part of the type
      iterate 3
        · obtain ⟨a', s₄, ha, h⟩ := run_bind_eq_ok.mp hsubject
          obtain ⟨⟨rfl, rfl⟩, rfl⟩ := of_run_pure h
          exact .tyPredicate (htypes.fnPtr ha hls) hcolon hbs
      · rename_i hk
        obtain ⟨a', s₄, ha, h⟩ := run_bind_eq_ok.mp hsubject
        obtain ⟨⟨rfl, rfl⟩, rfl⟩ := of_run_pure h
        exact .boundPredicate hls (by simp [hk]) (htypes.qualifiedTy ha) hcolon hbs
      · obtain ⟨a', s₄, ha, h⟩ := run_bind_eq_ok.mp hsubject
        obtain ⟨⟨rfl, rfl⟩, rfl⟩ := of_run_pure h
        exact .boundPredicate hls (htypes.plainTy ha).2 (htypes.plainTy ha).1 hcolon hbs
    · obtain ⟨a', s₃, ha, h⟩ := run_bind_eq_ok.mp hsubject
      obtain ⟨⟨rfl, rfl⟩, rfl⟩ := of_run_pure h
      exact .tyPredicate (htypes.ty ha) hcolon hbs

theorem predicates_derives {m : Nat} {ps : List Predicate}
    (h : (openList Expected.predicate.contains Expected.predicate (predicate n) m).run s =
      .ok (ps, s')) :
    Derives .predicates s ps s' := by
  refine openList_induction (P := fun s ps => Derives .predicates s ps s') ?_ ?_ ?_ h
  · exact fun hstarts => .predicatesNil (by simpa using hstarts)
  · exact fun hp hend => .predicatesLast (predicate_derives hp) hend
  · exact fun hp hnext hcomma _ hps => .predicatesCons (predicate_derives hp)
      ⟨hnext, hcomma, rfl, rfl⟩ hps

end Grammar
end ShadowImpl
