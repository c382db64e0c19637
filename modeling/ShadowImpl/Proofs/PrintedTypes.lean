import ShadowImpl.Proofs.PrintedPaths

/-!
# Printed types

One rule for each form of type, bound and argument: in front of a text, its printed form is read as
it, if its parts are in front of what is printed behind them.
-/

namespace ShadowImpl

open Filter Lexeme Recogniser

variable {e : Expectation} {w z g y : List Char} {name : String}

namespace Grammar

open Reading

/-! ## The forms of types -/

variable {t : Ty}

/-- In every place of a type its first tokens are found. -/
theorem finds_type : ∀ e ∈ Expected.afterBinder :: typePlaces, .ident ∈ e ∧
    ∀ κ ∈ [Terminal.amp, .star, .lpar, .lsqb, .bang, .lt, .pathSep], finds e κ = true := by
  decide

/-- A type that is told by its first token is read again if it is behind that token. -/
theorem Typed.of_plain {κ : Terminal} (hop : t.opening = κ)
    (hκ : κ ∉ [Terminal.lt, .kwFor, .kwUnsafe, .kwExtern, .kwFn])
    (h : ∀ e ∈ Expected.afterBinder :: typePlaces, κ ∈ e → ∀ g, IsLayout g →
      (Next.of e (g ++ (t.print.toList ++ z))).kind = κ ∧ ∀ᶠ n in atTop,
        (plainTy n).Reads e (g ++ (t.print.toList ++ z)) t Expected.afterType z) : Typed t z := by
  subst hop
  intro e he hmem g hg
  obtain ⟨hkind, hreads⟩ := h e he hmem g hg
  refine ⟨hkind, eventually_of_succ (eventually_of_succ ?_)⟩
  simp only [List.mem_cons, List.not_mem_nil, or_false, not_or] at hκ
  filter_upwards [hreads] with n hn
  rw [ty, bareTy]
  refine .peek hkind ?_
  rw [if_neg hκ.1]
  refine .peek hkind ?_
  split
  · exact absurd ‹_› hκ.2.1
  · exact absurd ‹_› hκ.2.2.1
  · exact absurd ‹_› hκ.2.2.2.1
  · exact absurd ‹_› hκ.2.2.2.2
  · exact hn

/-- A type that a symbol opens. -/
theorem Typed.of_front {κ : Terminal} {x : List Char} (hop : t.opening = κ)
    (hκ : κ ∈ [Terminal.amp, .star, .lpar, .lsqb, .bang])
    (htext : t.print.toList ++ z = κ.spelling ++ x)
    (h : ∀ e ∈ Expected.afterBinder :: typePlaces, ∀ g, IsLayout g →
      Next.of e (g ++ (κ.spelling ++ x)) = .token ⟨κ, g, κ.spelling⟩ x →
      ∀ᶠ n in atTop, (plainTy n).Reads e (g ++ (κ.spelling ++ x)) t Expected.afterType z) :
    Typed t z := by
  have hall : ∀ κ ∈ [Terminal.amp, .star, .lpar, .lsqb, .bang],
      κ ∉ [Terminal.lt, .kwFor, .kwUnsafe, .kwExtern, .kwFn] ∧
      κ ∈ [Terminal.amp, .star, .lpar, .lsqb, .bang, .lt, .pathSep] := by
    decide
  refine .of_plain hop (hall κ hκ).1 fun e he _ g hg => ?_
  have hof := of_symbol (z := x) ((finds_type e he).2 κ (hall κ hκ).2) hg
  rw [htext]
  exact ⟨kind_of_eq hof, h e he g hg hof⟩

/-- A path is a type. -/
theorem Pathed.typed {p : Path} (h : Pathed p z) : Typed (.path p) z := by
  have hop : (Ty.path p).opening ∉ [Terminal.lt, .kwFor, .kwUnsafe, .kwExtern, .kwFn] := by
    rw [Ty.opening]
    split <;> decide
  refine .of_plain rfl hop fun e he _ g hg => ?_
  obtain ⟨hident, hfinds⟩ := finds_type e he
  obtain ⟨hkind, hreads⟩ := h e hident (hfinds _ (by decide)) g hg
  rw [Ty.print_path]
  refine ⟨hkind, eventually_of_succ ?_⟩
  filter_upwards [hreads] with n hn
  rw [plainTy]
  refine .peek hkind ?_
  cases p.rooted <;> exact .map hn

theorem Typed.never (z : List Char) : Typed .never z := by
  refine .of_front (κ := .bang) (x := z) rfl (by decide) (by simp [Ty.print, Terminal.spelling]) ?_
  intro e _ g _ hof
  refine eventually_of_succ (.of_forall fun n => ?_)
  rw [plainTy]
  exact .peek_token hof (.shift hof (.pure _))

/-- A type behind `mut`, or behind nothing. -/
theorem mutable_reads (h : Typed t z) (mutable : Bool) (l : Option Lifetime)
    (he : e ∈ [Expected.referent, Expected.mutOrType]) (hg : IsLayout g) :
    (Next.of e (g ++ ((if mutable then "mut " else "").toList ++ (t.print.toList ++ z)))).kind ≠
      .lifetime ∧ ∀ᶠ n in atTop, (optional .kwMut Expected.type >>= fun m => ty n >>= fun t =>
        pure (Ty.ref l m t)).Reads e
          (g ++ ((if mutable then "mut " else "").toList ++ (t.print.toList ++ z)))
            (.ref l mutable t)
          Expected.afterType z := by
  have hall : ∀ e ∈ [Expected.referent, Expected.mutOrType], e ∈ typePlaces ∧
      .ident ∈ e ∧ .kwMut ∈ e ∧ ∀ κ ∈ Expected.type, κ ∈ e ∧ κ ≠ .lifetime ∧ κ ≠ .kwMut := by
    decide
  obtain ⟨hplace, hident, hmut, htype⟩ := hall e he
  cases mutable with
  | true =>
    have hof := of_keyword (z := ' ' :: (t.print.toList ++ z)) (by decide) hmut hident hg
      (by simp [Breaks, isBreak])
    have htext : g ++ ((if true then "mut " else "").toList ++ (t.print.toList ++ z)) =
        g ++ (Terminal.kwMut.spelling ++ ' ' :: (t.print.toList ++ z)) := by
      simp [Terminal.spelling]
    rw [htext]
    refine ⟨by simp [hof, Next.kind], ?_⟩
    filter_upwards [h.reads (e := Expected.type) (by decide) isLayout_space] with n hn
    exact .present hof (.map hn)
  | false =>
    -- What a type begins with is neither a lifetime nor `mut`.
    obtain ⟨hmem, hne, hne'⟩ := htype _ t.opening_mem
    obtain ⟨hkind, hreads⟩ := h e (by simp [hplace]) hmem g hg
    refine ⟨by simpa [hkind] using hne, ?_⟩
    filter_upwards [hreads] with n hn
    exact .absent (by simpa [hkind] using hne') (.map hn)

/-- A reference, with its lifetime and its `mut` in front of the type. -/
theorem Typed.ref {l : Option Lifetime} (hl : ∀ l' ∈ l, IsLifetime l'.name.toList) (mutable : Bool)
    (h : Typed t z) : Typed (.ref l mutable t) z := by
  cases l with
  | none =>
    refine .of_front (κ := .amp)
      (x := (if mutable then "mut " else "").toList ++ (t.print.toList ++ z))
      rfl (by decide) (by simp [Ty.print, Terminal.spelling]) ?_
    intro e _ g _ hof
    obtain ⟨hkind, hreads⟩ := mutable_reads h mutable none (e := Expected.referent)
      (by simp) isLayout_nil
    rw [List.nil_append] at hkind hreads
    refine eventually_of_succ (eventually_of_succ ?_)
    filter_upwards [hreads] with n hn
    rw [plainTy, refTy]
    refine .peek_token hof (.token hof (.peek rfl ?_))
    rw [if_neg hkind]
    exact hn
  | some l =>
    refine .of_front (κ := .amp)
      (x := l.name.toList ++ ' ' :: ((if mutable then "mut " else "").toList ++
      (t.print.toList ++ z))) rfl (by decide) (by simp [Ty.print, Terminal.spelling]) ?_
    intro e _ g _ hof
    have hof' := of_lifetime (e := Expected.referent) (g := []) (z := ' ' ::
      ((if mutable then "mut " else "").toList ++ (t.print.toList ++ z))) (hl l rfl) (by decide)
      isLayout_nil (by simp [Breaks, isBreak])
    obtain ⟨-, hreads⟩ := mutable_reads h mutable (some l) (e := Expected.mutOrType)
      (by simp) isLayout_space
    refine eventually_of_succ (eventually_of_succ ?_)
    filter_upwards [hreads] with n hn
    rw [plainTy, refTy]
    refine .peek_token hof (.token hof (.peek_token hof' ?_))
    rw [if_pos rfl]
    refine .shift hof' ?_
    simpa using hn

theorem Typed.ptr (mutable : Bool) (h : Typed t z) : Typed (.ptr mutable t) z := by
  refine .of_front (κ := .star) (x := (if mutable then Terminal.kwMut else .kwConst).spelling ++
    ' ' :: (t.print.toList ++ z)) rfl (by decide) ?_ ?_
  · cases mutable <;> simp [Ty.print, Terminal.spelling]
  intro e _ g _ hof
  refine eventually_of_succ (eventually_of_succ ?_)
  filter_upwards [h.reads (e := Expected.type) (by decide) isLayout_space] with n hn
  rw [plainTy, ptrTy]
  refine .peek_token hof (.token hof ?_)
  cases mutable with
  | true => exact .present (of_symbol_front (by decide)) (.map hn)
  | false =>
    have hconst := of_symbol_front (e := Expected.pointerKind) (κ := .kwConst)
      (z := ' ' :: (t.print.toList ++ z)) (by decide)
    refine .absent ?_ (.token hconst (.map hn))
    intro hkind
    have : Terminal.kwConst = .kwMut := (congrArg Next.kind hconst).symm.trans hkind
    exact absurd this (by decide)

/-! ## Parentheses and brackets -/

/-- A type in a list that a parenthesis ends. -/
theorem Typed.listed (h : Typed t z) : Listed ty [.comma, .rpar] (· ≠ .rpar) Expected.typeOrClose
    t.print.toList t z := by
  intro g hg
  refine ⟨decide_eq_true (h.kind_ne (by decide) hg (by decide)), Expected.afterType, by decide, ?_⟩
  exact h.reads (by decide) hg

theorem Typed.unit (z : List Char) : Typed (.tuple []) z := by
  refine .of_front (κ := .lpar) (x := Terminal.rpar.spelling ++ z) rfl (by decide)
    (by simp [Ty.print, printTys, Text.join, Terminal.spelling]) ?_
  intro e _ g _ hof
  refine eventually_of_succ (eventually_of_succ (.of_forall fun n => ?_))
  rw [plainTy, parenTy]
  refine .peek_token hof (.token hof (.present (of_symbol_front (by decide)) ?_))
  rw [if_pos rfl]
  exact .pure _

/-- A type in brackets is read up to its bracket. -/
theorem Typed.paren (h : Typed t (Terminal.rpar.spelling ++ z)) : Typed (.paren t) z := by
  refine .of_front (κ := .lpar) (x := t.print.toList ++ (Terminal.rpar.spelling ++ z)) rfl
    (by decide) (by simp [Ty.print, Terminal.spelling]) ?_
  intro e _ g _ hof
  have hkind := h.kind_ne (e := Expected.typeOrClose) (κ := .rpar)
    (by decide) isLayout_nil (by decide)
  have hrpar := of_symbol_front (e := Expected.afterType) (κ := .rpar) (z := z) (by decide)
  refine eventually_of_succ (eventually_of_succ ?_)
  filter_upwards [h.reads (e := Expected.typeOrClose) (by decide) isLayout_nil] with n hn
  rw [plainTy, parenTy]
  refine .peek_token hof (.token hof (.absent hkind ?_))
  rw [if_neg (by simp)]
  refine hn.bind (.absent (by rw [hrpar]; simp [Next.kind]) ?_)
  rw [if_neg (by simp)]
  exact .token hrpar (.pure _)

/-- A tuple is a type, a comma and a list that may be empty. -/
theorem Typed.tuple {ts : List Ty} (hg : IsLayout g)
    (htext : (Ty.tuple (t :: ts)).print.toList = Terminal.lpar.spelling ++ (t.print.toList ++
      (Terminal.comma.spelling ++ (g ++ ((Text.join ", " (printTys ts)).toList ++
        Terminal.rpar.spelling)))))
    (h : Typed t (Terminal.comma.spelling ++ (g ++ ((Text.join ", " (printTys ts)).toList ++
      (Terminal.rpar.spelling ++ z))))) (hts : TypesRead ts z) : Typed (.tuple (t :: ts)) z := by
  refine .of_front (κ := .lpar) (x := t.print.toList ++ (Terminal.comma.spelling ++ (g ++
    ((Text.join ", " (printTys ts)).toList ++ (Terminal.rpar.spelling ++ z))))) rfl (by decide)
    (by simp [htext]) ?_
  intro e _ g' _ hof
  have hkind := h.kind_ne (e := Expected.typeOrClose) (κ := .rpar)
    (by decide) isLayout_nil (by decide)
  refine eventually_of_succ (eventually_of_succ ?_)
  filter_upwards [h.reads (e := Expected.typeOrClose) (by decide) isLayout_nil,
    hts.reads hg] with n hn hts
  rw [plainTy, parenTy]
  refine .peek_token hof (.token hof (.absent hkind ?_))
  rw [if_neg (by simp)]
  refine hn.bind (.present (of_symbol_front (by decide)) ?_)
  rw [if_pos rfl]
  exact .map (f := fun ts => Ty.tuple (t :: ts)) hts

theorem Typed.slice (h : Typed t (Terminal.rsqb.spelling ++ z)) : Typed (.slice t) z := by
  refine .of_front (κ := .lsqb) (x := t.print.toList ++ (Terminal.rsqb.spelling ++ z)) rfl
    (by decide) (by simp [Ty.print, Terminal.spelling]) ?_
  intro e _ g _ hof
  refine eventually_of_succ (eventually_of_succ ?_)
  filter_upwards [h.reads (e := Expected.type) (by decide) isLayout_nil] with n hn
  rw [plainTy, bracketTy]
  refine .peek_token hof (.token hof (hn.bind (.present (of_symbol_front (by decide)) ?_)))
  rw [if_pos rfl]
  exact .pure _

/-- An array: its length is a text that is found again. -/
theorem Typed.array {length : String} (h : Typed t (Terminal.semi.spelling ++
      ' ' :: (length.toList ++ (Terminal.rsqb.spelling ++ z))))
    (htrim : Text.trim length.toList = length.toList)
    (hlength : ∀ᶠ n in atTop, (someTrees [.comma, .semi] n).Copies Expected.anything
      ([' '] ++ (length.toList ++ (Terminal.rsqb.spelling ++ z))) length.toList Expected.anything
      (Terminal.rsqb.spelling ++ z)) : Typed (.array t length) z := by
  refine .of_front (κ := .lsqb) (x := t.print.toList ++ (Terminal.semi.spelling ++
    ' ' :: (length.toList ++ (Terminal.rsqb.spelling ++ z)))) rfl (by decide)
    (by simp [Ty.print, Terminal.spelling]) ?_
  intro e _ g _ hof
  have hsemi := of_symbol_front (e := Expected.afterType) (κ := .semi)
    (z := ' ' :: (length.toList ++ (Terminal.rsqb.spelling ++ z))) (by decide)
  refine eventually_of_succ (eventually_of_succ ?_)
  filter_upwards [h.reads (e := Expected.type) (by decide) isLayout_nil, hlength] with n hn hlength
  rw [plainTy, bracketTy]
  refine .peek_token hof (.token hof (hn.bind (.absent (by rw [hsemi]; simp [Next.kind]) ?_)))
  rw [if_neg (by simp)]
  refine .token hsemi (hlength.bind (.token (of_symbol_front (by decide)) ?_))
  have hlast : String.ofList (Text.trim (String.ofList length.toList).toList) = length := by
    rw [String.toList_ofList, htrim, String.ofList_toList]
  rw [hlast]
  exact .pure _

/-! ## Bounds -/

/-- Where a bound may start. -/
def boundPlaces : List Expectation :=
  [Expected.bound, Expected.predicateBound]

theorem finds_bound : ∀ e ∈ boundPlaces, (∀ κ ∈ Expected.bound, κ ∈ e) ∧ finds e .pathSep = true ∧
    finds e .qmark = true := by
  decide

/-- A bound in front of `z`. -/
def BoundRead (b : Bound) (z : List Char) : Prop :=
  ∀ e ∈ boundPlaces, ∀ g, IsLayout g →
    (Next.of e (g ++ (b.print.toList ++ z))).kind ∈ Expected.bound ∧
    ∀ᶠ n in atTop, (bound n).Reads e (g ++ (b.print.toList ++ z)) b Expected.afterType z

/-- Bounds in front of `z`. -/
def BoundsRead (bs : List Bound) (z : List Char) : Prop :=
  ∀ e ∈ boundPlaces,
    (∀ g, IsLayout g → (Next.of e (g ++ ((Text.join " + " (printEachBound bs)).toList ++ z))).kind ∈
      Expected.bound) ∧
    PlusListed bound Expected.bound e Expected.afterType
      (Text.join " + " (printEachBound bs)).toList bs z

/-- A single bound, which no `+` follows. -/
theorem BoundRead.single {b : Bound} (h : BoundRead b z) (hz : ∀ e, (Next.of e z).kind ≠ .plus) :
    BoundsRead [b] z := by
  intro e he
  have htext : (Text.join " + " (printEachBound [b])).toList = b.print.toList := by
    simp [printEachBound, Text.join]
  rw [htext]
  exact ⟨fun g hg => (h e he g hg).1, .single (fun g hg => (h e he g hg).2) (hz _)⟩

/-- A bound in front of others. -/
theorem BoundRead.cons {b b' : Bound} {bs : List Bound}
    (h : BoundRead b (" + ".toList ++ ((Text.join " + " (printEachBound (b' :: bs))).toList ++ z)))
    (hbs : BoundsRead (b' :: bs) z) : BoundsRead (b :: b' :: bs) z := by
  intro e he
  have htext : (Text.join " + " (printEachBound (b :: b' :: bs))).toList = b.print.toList ++
      (" + ".toList ++ (Text.join " + " (printEachBound (b' :: bs))).toList) := by
    rw [printEachBound, printEachBound, join_cons_cons]
  rw [htext]
  refine ⟨fun g hg => ?_, .cons (fun g hg => (h e he g hg).2) (by decide)
    (hbs Expected.bound (by decide)).2⟩
  rw [List.append_assoc, List.append_assoc]
  exact (h e he g hg).1

/-- Bounds are read again in every place where bounds may stand. -/
theorem BoundsRead.reads {bs : List Bound} (h : BoundsRead bs z) (he : e ∈ boundPlaces)
    (hg : IsLayout g) : ∀ᶠ n in atTop,
      (bounds n).Reads e (g ++ ((Text.join " + " (printEachBound bs)).toList ++ z)) bs
        Expected.afterType z := by
  refine eventually_of_succ ?_
  filter_upwards [(h e he).2 g hg, eventually_ge_atTop bs.length] with n hn hk
  rw [bounds]
  exact hn n hk

theorem BoundRead.lifetime {l : Lifetime} (hl : IsLifetime l.name.toList) (hz : Breaks z) :
    BoundRead (.lifetime l) z := by
  intro e he g hg
  have hof := of_lifetime hl ((finds_bound e he).1 .lifetime (by decide)) hg hz
  rw [Bound.print]
  refine ⟨by rw [kind_of_eq hof]; decide, eventually_of_succ (.of_forall fun n => ?_)⟩
  rw [bound]
  refine .peek_token hof (.shift hof ?_)
  rw [String.ofList_toList]
  exact .pure _

/-- A lifetime in a binder. -/
theorem binderItem_listed {l : Lifetime} (hl : IsLifetime l.name.toList) (hz : Breaks z) :
    Listed (fun _ => do return Lifetime.mk (← token .lifetime Expected.afterArg)) [.comma, .gt]
      (· ≠ .gt) Expected.binderItem l.name.toList l z := by
  intro g hg
  have hof := of_lifetime (e := Expected.binderItem) hl (by decide) hg hz
  refine ⟨by rw [kind_of_eq hof]; decide, Expected.afterArg, by decide, .of_forall fun n => ?_⟩
  refine .token hof ?_
  rw [String.ofList_toList]
  exact .pure _

/-- The lifetimes of a binder, up to its `>`. -/
theorem binderItems_listed {ls : List Lifetime} (hls : ∀ l ∈ ls, IsLifetime l.name.toList) :
    CommaListed (fun _ => do return Lifetime.mk (← token .lifetime Expected.afterArg)) .gt
      Expected.binderItem Expected.afterBinder (Text.join ", " (ls.map Lifetime.name)).toList ls
      z := by
  induction ls with
  | nil => exact .nil (by decide)
  | cons l ls ih =>
    have hl := hls l (by simp)
    have ih := ih fun l' hl' => hls l' (by simp [hl'])
    cases ls with
    | nil =>
      refine .single (binderItem_listed hl ?_) (by decide)
      simp [Breaks, Terminal.spelling, isBreak]
    | cons l' ls =>
      rw [List.map_cons, List.map_cons, join_cons_cons]
      exact .cons (binderItem_listed hl (by simp [Breaks, isBreak])) ih

/-- A binder in front of `z`. -/
theorem binder_reads {ls : List Lifetime} (hls : ∀ l ∈ ls, IsLifetime l.name.toList) (hne : ls ≠ [])
    (hfor : .kwFor ∈ e) (he : .ident ∈ e) (hg : IsLayout g) :
    Next.of e (g ++ ((printBinder ls).toList ++ z)) = .token ⟨.kwFor, g, Terminal.kwFor.spelling⟩
      (Terminal.lt.spelling ++ ((Text.join ", " (ls.map Lifetime.name)).toList ++
        (Terminal.gt.spelling ++ ' ' :: z))) ∧
    ∀ᶠ n in atTop, (binder n).Reads e (g ++ ((printBinder ls).toList ++ z)) ls Expected.afterBinder
      (' ' :: z) := by
  have htext : (printBinder ls).toList ++ z = Terminal.kwFor.spelling ++ (Terminal.lt.spelling ++
      ((Text.join ", " (ls.map Lifetime.name)).toList ++ (Terminal.gt.spelling ++ ' ' :: z))) := by
    simp [printBinder, hne, Terminal.spelling]
  have hof := of_keyword
      (z := Terminal.lt.spelling ++ ((Text.join ", " (ls.map Lifetime.name)).toList ++
    (Terminal.gt.spelling ++ ' ' :: z))) (by decide) hfor he hg
    (by simp [Breaks, Terminal.spelling, isBreak])
  rw [htext]
  refine ⟨hof, ?_⟩
  filter_upwards [binderItems_listed hls [] isLayout_nil, eventually_gt_atTop ls.length]
    with n hn hk
  rw [binder]
  exact .token hof (.token (of_symbol_front (by decide)) (hn n hk))

/-- A bound behind its sign, with its binder and its path. -/
theorem traitBound_reads {p : Path} {ls : List Lifetime} (maybe : Bool) (h : Pathed p z)
    (hls : ∀ l ∈ ls, IsLifetime l.name.toList) (he : .ident ∈ e) (hsep : finds e .pathSep = true)
    (hfor : .kwFor ∈ e) (hg : IsLayout g) :
    (Next.of e (g ++ ((printBinder ls).toList ++ (p.print.toList ++ z)))).kind ∈
      [Terminal.kwFor, .ident, .pathSep] ∧
    ∀ᶠ n in atTop, (traitBound maybe n).Reads e
      (g ++ ((printBinder ls).toList ++ (p.print.toList ++ z))) (.trait p maybe ls)
      Expected.afterType z := by
  -- An empty binder is not printed, so the path comes first.
  by_cases hne : ls = []
  · subst hne
    obtain ⟨hkind, hpath⟩ := h e he hsep g hg
    have hmem : (Next.of e (g ++ (p.print.toList ++ z))).kind ∈ [Terminal.ident, .pathSep] := by
      rw [hkind]
      split <;> decide
    refine ⟨List.mem_cons_of_mem _ hmem, eventually_of_succ ?_⟩
    filter_upwards [hpath] with n hn
    rw [traitBound]
    refine .peek rfl ?_
    rw [if_neg]
    · exact .map hn
    · intro hk
      rw [show (printBinder [] : String).toList ++ (p.print.toList ++ z) =
        p.print.toList ++ z from rfl] at hk
      rw [hk] at hmem
      exact absurd hmem (by decide)
  · obtain ⟨hof, hbinder⟩ := binder_reads (z := p.print.toList ++ z) hls hne hfor he hg
    obtain ⟨-, hpath⟩ := h Expected.afterBinder (by decide) (by decide) [' '] isLayout_space
    refine ⟨by rw [kind_of_eq hof]; decide, eventually_of_succ ?_⟩
    filter_upwards [hpath, hbinder] with n hn hbinder
    rw [traitBound]
    refine .peek_token hof ?_
    rw [if_pos rfl]
    exact hbinder.bind (.map hn)

theorem BoundRead.trait {p : Path} {ls : List Lifetime} (maybe : Bool) (h : Pathed p z)
    (hls : ∀ l ∈ ls, IsLifetime l.name.toList) : BoundRead (.trait p maybe ls) z := by
  intro e he g hg
  obtain ⟨hmem, hsep, hqmark⟩ := finds_bound e he
  cases maybe with
  | true =>
    have htext : (Bound.trait p true ls).print.toList ++ z = Terminal.qmark.spelling ++
        ((printBinder ls).toList ++ (p.print.toList ++ z)) := by
      simp [Bound.print, Terminal.spelling]
    have hof := of_symbol (z := (printBinder ls).toList ++ (p.print.toList ++ z)) hqmark hg
    obtain ⟨-, hreads⟩ := traitBound_reads (e := Expected.relaxed) true h hls
      (by decide) (by decide) (by decide) isLayout_nil
    rw [htext]
    refine ⟨by rw [kind_of_eq hof]; decide, eventually_of_succ ?_⟩
    filter_upwards [hreads] with n hn
    rw [bound]
    exact .peek_token hof (.shift hof hn)
  | false =>
    have htext : (Bound.trait p false ls).print.toList ++ z =
        (printBinder ls).toList ++ (p.print.toList ++ z) := by
      simp [Bound.print]
    obtain ⟨hkind, hreads⟩ := traitBound_reads (e := e) false h hls (hmem _ (by decide)) hsep
      (hmem _ (by decide)) hg
    have hall : ∀ κ ∈ [Terminal.kwFor, .ident, .pathSep], κ ∈ Expected.bound ∧ κ ≠ .lifetime ∧
        κ ≠ .qmark := by
      decide
    obtain ⟨hin, hlifetime, hqmark'⟩ := hall _ hkind
    rw [htext]
    refine ⟨hin, eventually_of_succ ?_⟩
    filter_upwards [hreads] with n hn
    rw [bound]
    refine .peek rfl ?_
    split
    · exact absurd ‹_› hlifetime
    · exact absurd ‹_› hqmark'
    · exact hn

/-- A type of bounds behind a keyword. -/
theorem Typed.of_bounds {κ : Terminal} {f : List Bound → Ty} {bs : List Bound}
    (hop : (f bs).opening = κ) (hκ : κ ∈ [Terminal.kwImpl, .kwDyn])
    (htext : (f bs).print.toList =
      κ.spelling ++ ' ' :: (Text.join " + " (printEachBound bs)).toList)
    (hf : ∀ n e x g y, Next.of e x = .token ⟨κ, g, κ.spelling⟩ y →
      (shift Expected.bound >>= fun _ => bounds n >>= fun bs => pure (f bs)).Reads e x (f bs)
        Expected.afterType z → (plainTy (n + 1)).Reads e x (f bs) Expected.afterType z)
    (h : BoundsRead bs z) : Typed (f bs) z := by
  have hall : ∀ κ ∈ [Terminal.kwImpl, .kwDyn], κ ∈ Terminal.keywords ∧
      κ ∉ [Terminal.lt, .kwFor, .kwUnsafe, .kwExtern, .kwFn] := by
    decide
  refine .of_plain hop (hall κ hκ).2 fun e he hmem g hg => ?_
  have hof := of_keyword (z := ' ' :: ((Text.join " + " (printEachBound bs)).toList ++ z))
    (hall κ hκ).1 hmem (finds_type e he).1 hg (by simp [Breaks, isBreak])
  rw [htext, List.append_assoc]
  refine ⟨kind_of_eq hof, eventually_of_succ ?_⟩
  filter_upwards [h.reads (e := Expected.bound) (by decide) isLayout_space] with n hn
  exact hf n e _ g _ hof (.shift hof (.map hn))

theorem Typed.implTrait {bs : List Bound} (h : BoundsRead bs z) : Typed (.implTrait bs) z := by
  refine .of_bounds (κ := .kwImpl) rfl (by decide) (by simp [Ty.print, Terminal.spelling]) ?_ h
  intro n e x g y hof hreads
  rw [plainTy]
  exact .peek_token hof hreads

theorem Typed.dynTrait {bs : List Bound} (h : BoundsRead bs z) : Typed (.dynTrait bs) z := by
  refine .of_bounds (κ := .kwDyn) rfl (by decide) (by simp [Ty.print, Terminal.spelling]) ?_ h
  intro n e x g y hof hreads
  rw [plainTy]
  exact .peek_token hof hreads

/-! ## Qualified paths and function pointers -/

/-- The trait behind `as`, if there is one, in front of the bracket. -/
def asChars : Option Path → List Char
  | none => []
  | some p => ' ' :: (Terminal.kwAs.spelling ++ ' ' :: p.print.toList)

/-- A type with its trait, up to the bracket. -/
def AsRead : Option Path → List Char → Prop
  | none, z => ∀ e, (Next.of e z).kind ≠ .kwAs
  | some p, z => Pathed p z

/-- The trait of a qualified path, or nothing. -/
theorem AsRead.reads {asTrait : Option Path} (h : AsRead asTrait z) : ∀ᶠ n in atTop,
    (asPath n).Reads Expected.afterType (asChars asTrait ++ z) asTrait Expected.afterType z := by
  cases asTrait with
  | none =>
    refine eventually_of_succ (.of_forall fun n => ?_)
    rw [asPath, asChars]
    refine .absent (h _) ?_
    rw [if_neg (by simp)]
    exact .pure _
  | some p =>
    obtain ⟨-, hpath⟩ := h Expected.path (by decide) (by decide) [' '] isLayout_space
    have has := of_symbol (e := Expected.afterType) (κ := .kwAs) (g := [' '])
      (z := ' ' :: (p.print.toList ++ z)) (by decide) isLayout_space
    refine eventually_of_succ ?_
    filter_upwards [hpath] with n hn
    rw [asPath, asChars, List.cons_append, List.append_assoc]
    refine .present has ?_
    rw [if_pos rfl]
    exact .map hn

theorem Typed.qualified {asTrait : Option Path} {segs : List Segment}
    (h : Typed t (asChars asTrait ++ (Terminal.gt.spelling ++ (Terminal.pathSep.spelling ++
      (segmentChars segs ++ z)))))
    (has : AsRead asTrait (Terminal.gt.spelling ++ (Terminal.pathSep.spelling ++
      (segmentChars segs ++ z)))) (hsegs : Segmented segs z) :
    Typed (.qualified t asTrait ⟨segs, false⟩) z := by
  intro e he _ g hg
  have htext : (Ty.qualified t asTrait ⟨segs, false⟩).print.toList ++ z = Terminal.lt.spelling ++
      (t.print.toList ++ (asChars asTrait ++ (Terminal.gt.spelling ++ (Terminal.pathSep.spelling ++
        (segmentChars segs ++ z))))) := by
    cases asTrait <;> simp [Ty.print, Path.print, asChars, segmentChars, Terminal.spelling]
  have hof := of_symbol (z := t.print.toList ++ (asChars asTrait ++ (Terminal.gt.spelling ++
    (Terminal.pathSep.spelling ++ (segmentChars segs ++ z)))))
      ((finds_type e he).2 .lt (by decide)) hg
  obtain ⟨-, hsegs⟩ := hsegs.segments (e := Expected.name) (by decide) isLayout_nil
  rw [htext]
  refine ⟨kind_of_eq hof, eventually_of_succ (eventually_of_succ ?_)⟩
  filter_upwards [h.reads (e := Expected.type) (by decide) isLayout_nil, has.reads, hsegs]
    with n hn has hsegs
  rw [ty, qualifiedTy]
  refine .peek_token hof ?_
  rw [if_pos rfl]
  refine .token hof (hn.bind (has.bind (.token (of_symbol_front (by decide))
    (.token (of_symbol_front (by decide)) ?_))))
  exact .map (f := fun segs => Ty.qualified t asTrait ⟨segs, false⟩) hsegs

/-- The name of an ABI, as it is written. -/
def abiChars : Option String → List Char
  | none => []
  | some a => Terminal.kwExtern.spelling ++ ' ' :: if a = "" then [] else a.toList ++ [' ']

/-- The name of an ABI is found behind `extern`. -/
def IsAbi (a : String) : Prop :=
  a = "" ∨ ∀ z, Breaks z →
    Next.of [.kwFn, .string] ([' '] ++ (a.toList ++ z)) = .token ⟨.string, [' '], a.toList⟩ z

/-- A keyword that may start or go on with a function pointer. -/
theorem of_fnKeyword {κ : Terminal} (hκ : κ ∈ [Terminal.kwUnsafe, .kwExtern, .kwFn]) (hκe : κ ∈ e)
    (he : e ∈ [.kwExtern, .kwFn] :: Expected.afterBinder :: typePlaces) (hg : IsLayout g)
    (hz : Breaks z) : Next.of e (g ++ (κ.spelling ++ z)) = .token ⟨κ, g, κ.spelling⟩ z := by
  have hall : ∀ e ∈ [.kwExtern, .kwFn] :: Expected.afterBinder :: typePlaces,
      ∀ κ ∈ [Terminal.kwUnsafe, .kwExtern, .kwFn], κ ∈ e → .ident ∈ e ∨ finds e κ = true := by
    decide
  have hkw : ∀ κ ∈ [Terminal.kwUnsafe, .kwExtern, .kwFn], κ ∈ Terminal.keywords := by decide
  rcases hall e he κ hκ hκe with hident | hfinds
  · exact of_keyword (hkw κ hκ) hκe hident hg hz
  · exact of_symbol hfinds hg

/-- In every place of a function type `extern` and `fn` are found. -/
theorem fnPlace_mem : ∀ e ∈ [.kwExtern, .kwFn] :: Expected.afterBinder :: typePlaces,
    .kwExtern ∈ e ∧ .kwFn ∈ e := by
  decide

/-- The ABI and `fn`. -/
theorem fnAbi_reads {abi : Option String}
    (he : e ∈ [.kwExtern, .kwFn] :: Expected.afterBinder :: typePlaces) (hg : IsLayout g)
    (habi : ∀ a ∈ abi, IsAbi a) (hy : Breaks y) :
    (Next.of e (g ++ (abiChars abi ++ (Terminal.kwFn.spelling ++ y)))).kind =
      (if abi.isSome then .kwExtern else .kwFn) ∧
    ∀ (f : Option String → Reading Ty) (t : Ty) (e' : Expectation) (z : List Char),
      (f abi).Reads [.lpar] y t e' z →
      (fnPtr.fnAbi >>= fun abi => token .kwFn [.lpar] >>= fun _ => f abi).Reads e
        (g ++ (abiChars abi ++ (Terminal.kwFn.spelling ++ y))) t e' z := by
  obtain ⟨hkwe, hfn⟩ := fnPlace_mem e he
  cases abi with
  | none =>
    have hof := of_fnKeyword (by decide) hfn he hg hy
    refine ⟨kind_of_eq hof, fun f t e' z h => ?_⟩
    refine Reads.bind (a := none) (.absent ?_ (.pure _)) (.token hof h)
    rw [abiChars, List.nil_append, kind_of_eq hof]
    decide
  | some a =>
    rw [abiChars, List.append_assoc]
    have hof := of_fnKeyword (κ := .kwExtern)
        (z := ' ' :: (if a = "" then [] else a.toList ++ [' ']) ++
      (Terminal.kwFn.spelling ++ y)) (by decide) hkwe he hg (by simp [Breaks, isBreak])
    refine ⟨kind_of_eq hof, fun f t e' z h => ?_⟩
    -- The ABI may be left out behind `extern`.
    by_cases ha : a = ""
    · subst ha
      have hof' := of_symbol (e := [.kwFn, .string]) (κ := .kwFn) (g := [' ']) (z := y) (by decide)
        isLayout_space
      refine Reads.bind (a := some "") (.present hof ?_) (.token hof' h)
      rw [if_pos rfl]
      refine .peek_token hof' ?_
      rw [if_neg (by decide)]
      exact .pure _
    · have hname := (habi a rfl).resolve_left ha (' ' :: (Terminal.kwFn.spelling ++ y))
        (by simp [Breaks, isBreak])
      have hof' := of_symbol (e := [.kwFn]) (κ := .kwFn) (g := [' ']) (z := y)
        (by decide) isLayout_space
      simp only [if_neg ha, List.cons_append, List.append_assoc,
        List.nil_append] at hof hname hof' ⊢
      refine Reads.bind (a := some a) (.present hof ?_) (.token hof' h)
      rw [if_pos rfl]
      refine .peek_token hname ?_
      rw [if_pos rfl]
      refine .shift hname ?_
      rw [String.ofList_toList]
      exact .pure _

/-- The parameters of a function pointer. -/
def FnArgsRead (inputs : List FnArg) (z : List Char) : Prop :=
  CommaListed fnArg .rpar Expected.typeOrClose Expected.afterType
    (Text.join ", " (printFnArgs inputs)).toList inputs z

/-- A function pointer without its binder, in front of `z`. -/
def fnChars (isUnsafe : Bool) (abi : Option String) (inputs : List FnArg) (output : Option Ty)
    (z : List Char) : List Char :=
  (if isUnsafe then Terminal.kwUnsafe.spelling ++ [' '] else []) ++ (abiChars abi ++
    (Terminal.kwFn.spelling ++ (Terminal.lpar.spelling ++
      ((Text.join ", " (printFnArgs inputs)).toList ++ (Terminal.rpar.spelling ++
        ((printOutput output).toList ++ z))))))

variable {ls : List Lifetime} {isUnsafe : Bool} {abi : Option String} {inputs : List FnArg}
  {output : Option Ty}

/-- A function type from its ABI on. Whether it is unsafe has been read before. -/
theorem fnSignature_reads (ls : List Lifetime) (isUnsafe : Bool) (habi : ∀ a ∈ abi, IsAbi a)
    (hinputs : FnArgsRead inputs ((printOutput output).toList ++ z)) (houtput : OutputRead output z)
    (he : e ∈ [.kwExtern, .kwFn] :: Expected.afterBinder :: typePlaces) (hg : IsLayout g) :
    (Next.of e (g ++ fnChars false abi inputs output z)).kind =
      (if abi.isSome then .kwExtern else .kwFn) ∧
    ∀ᶠ n in atTop, (fnPtr.fnAbi >>= fun abi => token .kwFn [.lpar] >>= fun _ =>
      token .lpar Expected.typeOrClose >>= fun _ =>
      commaList .rpar Expected.typeOrClose Expected.afterType (fnArg n) n >>= fun inputs =>
      returnTy n >>= fun output => pure (Ty.fnPtr ls isUnsafe abi inputs output)).Reads e
        (g ++ fnChars false abi inputs output z) (.fnPtr ls isUnsafe abi inputs output)
        Expected.afterType z := by
  have hbreaks : Breaks
      (Terminal.lpar.spelling ++ ((Text.join ", " (printFnArgs inputs)).toList ++
      (Terminal.rpar.spelling ++ ((printOutput output).toList ++ z)))) := by
    simp [Breaks, Terminal.spelling, isBreak]
  obtain ⟨hkind, hreads⟩ := fnAbi_reads he hg habi hbreaks
  refine ⟨hkind, ?_⟩
  filter_upwards [hinputs [] isLayout_nil, houtput.reads, eventually_gt_atTop inputs.length]
    with n hinputs houtput hk
  refine hreads _ _ _ _ (.token (of_symbol_front (by decide)) ((hinputs n hk).bind ?_))
  exact .map (f := fun output => Ty.fnPtr ls isUnsafe abi inputs output) houtput

/-- A function type from behind its binder on. -/
theorem fnPtr_reads (ls : List Lifetime) (isUnsafe : Bool) (habi : ∀ a ∈ abi, IsAbi a)
    (hinputs : FnArgsRead inputs ((printOutput output).toList ++ z)) (houtput : OutputRead output z)
    (he : e ∈ Expected.afterBinder :: typePlaces) (hg : IsLayout g) :
    (Next.of e (g ++ fnChars isUnsafe abi inputs output z)).kind =
      (Ty.fnPtr [] isUnsafe abi inputs output).opening ∧
    ∀ᶠ n in atTop, (fnPtr ls n).Reads e (g ++ fnChars isUnsafe abi inputs output z)
      (.fnPtr ls isUnsafe abi inputs output) Expected.afterType z := by
  have hkw : ∀ e ∈ Expected.afterBinder :: typePlaces, .kwUnsafe ∈ e := by decide
  cases isUnsafe with
  | true =>
    have hof := of_fnKeyword (κ := .kwUnsafe) (z := ' ' :: fnChars false abi inputs output z)
      (by decide) (hkw e he) (List.mem_cons_of_mem _ he) hg (by simp [Breaks, isBreak])
    obtain ⟨-, hreads⟩ := fnSignature_reads ls true habi hinputs houtput (e := [.kwExtern, .kwFn])
      (by simp) isLayout_space
    have htext : fnChars true abi inputs output z =
        Terminal.kwUnsafe.spelling ++ ' ' :: fnChars false abi inputs output z := by
      simp [fnChars]
    rw [htext]
    refine ⟨kind_of_eq hof, eventually_of_succ ?_⟩
    filter_upwards [hreads] with n hn
    rw [fnPtr]
    exact .present hof hn
  | false =>
    obtain ⟨hkind, hreads⟩ := fnSignature_reads ls false habi hinputs houtput
      (List.mem_cons_of_mem _ he) hg
    refine ⟨?_, eventually_of_succ ?_⟩
    · rw [hkind]
      cases abi <;> rfl
    · filter_upwards [hreads] with n hn
      rw [fnPtr]
      refine .absent ?_ hn
      rw [hkind]
      split <;> decide

theorem Typed.fnPtr (hls : ∀ l ∈ ls, IsLifetime l.name.toList) (habi : ∀ a ∈ abi, IsAbi a)
    (hinputs : FnArgsRead inputs ((printOutput output).toList ++ z))
    (houtput : OutputRead output z) : Typed (.fnPtr ls isUnsafe abi inputs output) z := by
  intro e he hmem g hg
  have htext : (Ty.fnPtr ls isUnsafe abi inputs output).print.toList ++ z =
      (printBinder ls).toList ++ fnChars isUnsafe abi inputs output z := by
    cases abi with
    | none => cases isUnsafe <;> simp [Ty.print, fnChars, abiChars, Terminal.spelling]
    | some a =>
      by_cases ha : a = "" <;> cases isUnsafe <;>
        simp [Ty.print, fnChars, abiChars, Terminal.spelling, ha]
  rw [htext]
  by_cases hne : ls = []
  · subst hne
    obtain ⟨hkind, hreads⟩ := fnPtr_reads [] isUnsafe habi hinputs houtput he hg
    refine ⟨hkind, eventually_of_succ (eventually_of_succ ?_)⟩
    filter_upwards [hreads] with n hn
    have hlt : (Ty.fnPtr [] isUnsafe abi inputs output).opening ≠ .lt := by
      cases isUnsafe <;> cases abi <;> simp [Ty.opening]
    rw [ty, bareTy]
    refine .peek hkind ?_
    rw [if_neg hlt]
    refine .peek hkind ?_
    cases isUnsafe <;> cases abi <;> exact hn
  · obtain ⟨l, ls, rfl⟩ := List.exists_cons_of_ne_nil hne
    obtain ⟨hof, hbinder⟩ := binder_reads (z := fnChars isUnsafe abi inputs output z) hls hne hmem
      (finds_type e he).1 hg
    obtain ⟨-, hreads⟩ := fnPtr_reads (e := Expected.afterBinder) (l :: ls) isUnsafe
      habi hinputs houtput (by decide) isLayout_space
    refine ⟨kind_of_eq hof, eventually_of_succ (eventually_of_succ ?_)⟩
    filter_upwards [hreads, hbinder] with n hn hbinder
    rw [ty, bareTy]
    refine .peek_token hof ?_
    rw [if_neg (by decide)]
    exact .peek_token hof (hbinder.bind hn)

/-! ## Arguments -/

/-- What stands behind a name that may be a label, in a list. -/
theorem kind_afterLabel {c : Char} (args : Option PathArgs) (rest : List Segment) (z : List Char)
    (hc : c ∈ [',', '>', ')']) :
    (Next.of Expected.afterLabel (argChars args ++ (moreChars rest ++ c :: z))).kind ∈
      [Terminal.comma, .gt, .rpar, .lt, .lpar, .pathSep] := by
  obtain ⟨κ, x, hκ, htext⟩ : ∃ κ x, κ ∈ [Terminal.comma, .gt, .rpar, .lt, .lpar, .pathSep] ∧
      argChars args ++ (moreChars rest ++ c :: z) = κ.spelling ++ x := by
    match args, rest with
    | some (.angle as false),
        _ => exact ⟨.lt, _, by decide, by simp [argChars, PathArgs.print]; rfl⟩
    | some (.angle as true), _ =>
      exact ⟨.pathSep, _, by decide, by simp [argChars, PathArgs.print]; rfl⟩
    | some (.paren inputs output), _ =>
      exact ⟨.lpar, _, by decide, by simp [argChars, PathArgs.print]; rfl⟩
    | none, seg :: segs => exact ⟨.pathSep, _, by decide, by simp [argChars, moreChars]; rfl⟩
    | none, [] =>
      simp only [List.mem_cons, List.not_mem_nil, or_false] at hc
      rcases hc with rfl | rfl | rfl
      · exact ⟨.comma, z, by decide, rfl⟩
      · exact ⟨.gt, z, by decide, rfl⟩
      · exact ⟨.rpar, z, by decide, rfl⟩
  have hall : ∀ κ ∈ [Terminal.comma, .gt, .rpar, .lt, .lpar, .pathSep],
      finds Expected.afterLabel κ = true := by
    decide
  rw [htext, kind_of_eq (of_symbol_front (hall κ hκ))]
  exact hκ

/-- A generic argument in front of `z`. -/
def ArgRead (arg : GenericArg) (z : List Char) : Prop :=
  Listed genericArg [.comma, .gt] (· ≠ .gt) Expected.genericArg arg.print.toList arg z

/-- A parameter of a function pointer in front of `z`. -/
def FnArgRead (arg : FnArg) (z : List Char) : Prop :=
  Listed fnArg [.comma, .rpar] (· ≠ .rpar) Expected.typeOrClose arg.print.toList arg z

theorem ArgRead.lifetime {l : Lifetime} (hl : IsLifetime l.name.toList) (hz : Breaks z) :
    ArgRead (.lifetime l) z := by
  intro g hg
  have hof := of_lifetime (e := Expected.genericArg) hl (by decide) hg hz
  rw [GenericArg.print]
  refine ⟨by rw [kind_of_eq hof]; decide, Expected.afterArg, by decide,
    eventually_of_succ (.of_forall fun n => ?_)⟩
  rw [genericArg]
  refine .peek_token hof (.shift hof ?_)
  rw [String.ofList_toList]
  exact .pure _

/-- A binding: its name is followed by a space, so it is no path with arguments. -/
theorem ArgRead.binding (hname : IsPlainName name) (h : Typed t z) :
    ArgRead (.binding name t) z := by
  intro g hg
  have htext : (GenericArg.binding name t).print.toList ++ z = name.toList ++
      ' ' :: (Terminal.eq.spelling ++ ' ' :: (t.print.toList ++ z)) := by
    simp [GenericArg.print, Terminal.spelling]
  have hof := hname.of_name (e := Expected.genericArg) (z := ' ' :: (Terminal.eq.spelling ++
    ' ' :: (t.print.toList ++ z))) (by decide) hg (by simp [Breaks, isBreak])
  have heq := of_symbol (e := Expected.afterLabel) (κ := .eq) (g := [' '])
    (z := ' ' :: (t.print.toList ++ z)) (by decide) isLayout_space
  rw [htext]
  refine ⟨by rw [kind_of_eq hof]; decide, Expected.afterType, by decide, eventually_of_succ ?_⟩
  filter_upwards [h.reads (e := Expected.type) (by decide) isLayout_space] with n hn
  rw [genericArg]
  refine .peek_token hof (.shift hof (.peek_token heq (.shift heq ?_)))
  rw [String.ofList_toList]
  exact .map hn

theorem ArgRead.constraint {bs : List Bound} (hname : IsPlainName name) (h : BoundsRead bs z) :
    ArgRead (.constraint name bs) z := by
  intro g hg
  have htext : (GenericArg.constraint name bs).print.toList ++ z = name.toList ++
      ':' :: ' ' :: ((Text.join " + " (printEachBound bs)).toList ++ z) := by
    simp [GenericArg.print]
  have hof := hname.of_name (e := Expected.genericArg) (z := ':' :: ' ' ::
    ((Text.join " + " (printEachBound bs)).toList ++ z)) (by decide) hg (by simp [Breaks, isBreak])
  have hcolon := of_colon (e := Expected.afterLabel) (g := [])
    (z := ' ' :: ((Text.join " + " (printEachBound bs)).toList ++ z))
      (by decide) isLayout_nil (by simp)
  rw [htext]
  refine ⟨by rw [kind_of_eq hof]; decide, Expected.afterType, by decide, eventually_of_succ ?_⟩
  filter_upwards [h.reads (e := Expected.bound) (by decide) isLayout_space] with n hn
  rw [genericArg]
  refine .peek_token hof (.shift hof (.peek_token hcolon (.shift hcolon ?_)))
  rw [String.ofList_toList]
  exact .map hn

/-- A constant is told by its first token, and is read up to the comma or the bracket behind it. -/
theorem ArgRead.const {text : String} (h : ∀ g, IsLayout g →
      (Next.of Expected.genericArg (g ++ (text.toList ++ z))).kind ∈ constStarts ∧
      ∃ e', (∀ κ ∈ [Terminal.comma, .gt], finds e' κ = true) ∧ ∀ᶠ n in atTop,
        (constText n).Reads Expected.genericArg (g ++ (text.toList ++ z)) text e' z) :
    ArgRead (.const text) z := by
  intro g hg
  obtain ⟨hkind, e', hfinds, hreads⟩ := h g hg
  rw [GenericArg.print]
  have hall : ∀ κ ∈ constStarts, decide (κ ≠ .gt) = true := by decide
  refine ⟨hall _ hkind, e', hfinds, eventually_of_succ ?_⟩
  filter_upwards [hreads] with n hn
  rw [genericArg]
  refine .peek rfl ?_
  simp only [constStarts, List.mem_cons, List.not_mem_nil, or_false] at hkind
  rcases hkind with hkind | hkind | hkind | hkind | hkind <;> rw [hkind] <;> exact .map hn

/-- A type that does not start with a name. -/
theorem Typed.arg (h : Typed t z) (hop : t.opening ≠ .ident) : ArgRead (.ty t) z := by
  intro g hg
  obtain ⟨hkind, hreads⟩ := h.at_place (e := Expected.genericArg) (by decide) hg
  have hall : ∀ κ ∈ Expected.type, κ ≠ .ident → κ ∉ Terminal.gt :: .lifetime :: .ident ::
      constStarts := by
    decide
  have hnot := hall _ t.opening_mem hop
  rw [← hkind] at hnot
  simp only [constStarts, List.mem_cons, List.not_mem_nil, or_false, not_or] at hnot
  rw [GenericArg.print]
  refine ⟨decide_eq_true hnot.1, Expected.afterType, by decide, eventually_of_succ ?_⟩
  filter_upwards [hreads] with n hn
  rw [genericArg]
  refine .peek rfl ?_
  split
  all_goals first | exact .map hn | (exfalso; simp_all)

/-- A path that starts with a name, in a list. -/
theorem Segmented.arg {segs : List Segment} {c : Char} (h : Segmented segs (c :: z))
    (hc : c ∈ [',', '>', ')']) : ArgRead (.ty (.path ⟨segs, false⟩)) (c :: z) := by
  match segs, h with
  | ⟨name, args⟩ :: rest, ⟨hname, hbreaks, hfrom⟩ =>
    intro g hg
    have htext : (GenericArg.ty (.path ⟨⟨name, args⟩ :: rest, false⟩)).print.toList ++ c :: z =
        name.toList ++ (argChars args ++ (moreChars rest ++ c :: z)) := by
      have := segmentChars_cons name args rest
      simp only [segmentChars] at this
      simp [GenericArg.print, Ty.print, Path.print, this]
    have hof := hname.of_name (e := Expected.genericArg) (by decide) hg hbreaks
    have hkind := kind_afterLabel args rest z hc
    obtain ⟨e', he', hfrom⟩ := hfrom Expected.afterLabel (by simp)
    have hall : ∀ e' ∈ [Expected.afterType, Expected.afterLabel], ∀ κ ∈ [Terminal.comma, .gt],
        finds e' κ = true := by
      decide
    rw [htext]
    refine ⟨by rw [kind_of_eq hof]; decide, e', hall e' he', eventually_of_succ ?_⟩
    filter_upwards [hfrom] with n hn
    rw [genericArg]
    refine .peek_token hof (.shift hof (.peek rfl ?_))
    rw [String.ofList_toList]
    -- Behind a name, only `=` and `:` make it the name of something else.
    have hne : ∀ κ ∈ [Terminal.comma, .gt, .rpar, .lt, .lpar, .pathSep], κ ≠ .eq ∧ κ ≠ .colon := by
      decide
    obtain ⟨heq, hcolon⟩ := hne _ hkind
    split
    · exact absurd ‹_› heq
    · exact absurd ‹_› hcolon
    · exact .map (f := fun segs => GenericArg.ty (.path ⟨segs, false⟩)) hn

theorem FnArgRead.named (hname : IsPlainName name) (h : Typed t z) :
    FnArgRead ⟨some name, t⟩ z := by
  intro g hg
  have hne : name ≠ "" := by
    rintro rfl
    obtain ⟨c, r, hr, -⟩ := hname.isName.exists_cons
    simp at hr
  have htext : (FnArg.mk (some name) t).print.toList ++ z = name.toList ++
      ':' :: ' ' :: (t.print.toList ++ z) := by
    simp [FnArg.print, hne]
  have hof := hname.of_name (e := Expected.typeOrClose) (z := ':' :: ' ' :: (t.print.toList ++ z))
    (by decide) hg (by simp [Breaks, isBreak])
  have hcolon := of_colon (e := Expected.afterLabel) (g := []) (z := ' ' :: (t.print.toList ++ z))
    (by decide) isLayout_nil (by simp)
  rw [htext]
  refine ⟨by rw [kind_of_eq hof]; decide, Expected.afterType, by decide, eventually_of_succ ?_⟩
  filter_upwards [h.reads (e := Expected.type) (by decide) isLayout_space] with n hn
  rw [fnArg]
  refine .peek_token hof ?_
  rw [if_pos rfl]
  refine .shift hof (.present hcolon ?_)
  rw [if_pos rfl, String.ofList_toList]
  exact .map hn

/-- A parameter without a name that does not start with one. -/
theorem Typed.fnArg (h : Typed t z) (hop : t.opening ≠ .ident) : FnArgRead ⟨none, t⟩ z := by
  intro g hg
  obtain ⟨hkind, hreads⟩ := h.at_place (e := Expected.typeOrClose) (by decide) hg
  rw [FnArg.print]
  refine ⟨decide_eq_true (h.kind_ne (by decide) hg (by decide)), Expected.afterType, by decide,
    eventually_of_succ ?_⟩
  filter_upwards [hreads] with n hn
  rw [Grammar.fnArg]
  refine .peek hkind ?_
  rw [if_neg hop]
  exact .map hn

/-- A parameter without a name that is a path. What stands behind it ends its segments. -/
theorem Segmented.fnArg {segs : List Segment} {c : Char} (h : Segmented segs (c :: z))
    (hc : c ∈ [',', '>', ')']) : FnArgRead ⟨none, .path ⟨segs, false⟩⟩ (c :: z) := by
  match segs, h with
  | ⟨name, args⟩ :: rest, ⟨hname, hbreaks, hfrom⟩ =>
    intro g hg
    have htext : (FnArg.mk none (.path ⟨⟨name, args⟩ :: rest, false⟩)).print.toList ++ c :: z =
        name.toList ++ (argChars args ++ (moreChars rest ++ c :: z)) := by
      have := segmentChars_cons name args rest
      simp only [segmentChars] at this
      simp [FnArg.print, Ty.print, Path.print, this]
    have hof := hname.of_name (e := Expected.typeOrClose) (by decide) hg hbreaks
    have hkind := kind_afterLabel args rest z hc
    obtain ⟨e', he', hfrom⟩ := hfrom Expected.afterLabel (by simp)
    have hall : ∀ e' ∈ [Expected.afterType, Expected.afterLabel], ∀ κ ∈ [Terminal.comma, .rpar],
        finds e' κ = true := by
      decide
    rw [htext]
    refine ⟨by rw [kind_of_eq hof]; decide, e', hall e' he', eventually_of_succ ?_⟩
    filter_upwards [hfrom] with n hn
    rw [Grammar.fnArg]
    refine .peek_token hof ?_
    rw [if_pos rfl]
    refine .shift hof (.absent ?_ ?_)
    · -- Nor is the path the name of a parameter, for no colon stands behind it.
      intro hcolon
      rw [hcolon] at hkind
      exact absurd hkind (by decide)
    · rw [if_neg (by simp), String.ofList_toList]
      exact .map (f := fun segs => FnArg.mk none (.path ⟨segs, false⟩)) hn

end Grammar
end ShadowImpl
