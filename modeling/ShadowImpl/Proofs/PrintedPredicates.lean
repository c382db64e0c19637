import ShadowImpl.Proofs.PrintedTypes

/-!
# Printed predicates

The subject of a predicate and its bounds, and predicates on lifetimes, in front of the end of the
text or of another predicate.
-/

namespace ShadowImpl

open Filter Lexeme Recogniser

variable {e : Expectation} {z g : List Char} {t : Ty} {ls : List Lifetime}

namespace Grammar

open Reading

/-! ## Predicates -/

theorem qualifiedTy_of_ty {n : Nat} {x : List Char} {e' : Expectation}
    (hkind : (Next.of e x).kind = .lt) (h : (ty (n + 1)).Reads e x t e' z) :
    (qualifiedTy n).Reads e x t e' z := by
  intro taken
  have hk : (Scan.mk taken x e).next.kind = .lt := hkind
  obtain ⟨taken', h⟩ := h taken
  rw [ty, run_peek_bind, if_pos hk] at h
  exact ⟨taken', h⟩

theorem plainTy_of_ty {n : Nat} {x : List Char} {e' : Expectation}
    (hkind : (Next.of e x).kind ∉ [Terminal.lt, .kwFor, .kwUnsafe, .kwExtern, .kwFn])
    (h : (ty (n + 2)).Reads e x t e' z) : (plainTy n).Reads e x t e' z := by
  intro taken
  have hk : (Scan.mk taken x e).next.kind ∉ [Terminal.lt, .kwFor, .kwUnsafe,
    .kwExtern, .kwFn] := hkind
  simp only [List.mem_cons, List.not_mem_nil, or_false, not_or] at hk
  obtain ⟨taken', h⟩ := h taken
  rw [ty, bareTy, run_peek_bind, if_neg hk.1, run_peek_bind] at h
  split at h
  · exact absurd ‹_› hk.2.1
  · exact absurd ‹_› hk.2.2.1
  · exact absurd ‹_› hk.2.2.2.1
  · exact absurd ‹_› hk.2.2.2.2
  · exact ⟨taken', h⟩

theorem kind_of_fnPtr {n : Nat} {s s' : Scan} (h : (Grammar.fnPtr ls n).run s = .ok (t, s')) :
    s.next.kind ∈ [Terminal.kwUnsafe, .kwExtern, .kwFn] := by
  cases n with
  | zero => simp [Grammar.fnPtr] at h
  | succ n =>
    rw [Grammar.fnPtr] at h
    rcases run_optional_bind_eq_ok.mp h with ⟨u, r, hu, hk, -⟩ | ⟨-, h⟩
    · simp [kind_of_token hu, hk]
    · obtain ⟨abi, s₁, habi, h⟩ := run_bind_eq_ok.mp h
      rw [Grammar.fnPtr.fnAbi] at habi
      rcases run_optional_bind_eq_ok.mp habi with ⟨u, r, hu, hk, -⟩ | ⟨-, habi⟩
      · simp [kind_of_token hu, hk]
      · obtain ⟨-, rfl⟩ : none = abi ∧ s = s₁ := by simpa using habi
        obtain ⟨u, r, hu, hk, -⟩ := run_token_bind_eq_ok.mp h
        simp [kind_of_token hu, hk]

/-- Where a predicate may start. -/
def predicatePlaces : List Expectation :=
  [Expected.predicate, Expected.clausePredicate]

theorem finds_predicate :
    ∀ e ∈ predicatePlaces, e ∈ typePlaces ∧ .kwFor ∈ e ∧ .ident ∈ e ∧ .lifetime ∈ e := by
  decide

/-- A subject without a binder of its own. -/
theorem Typed.subject (h : Typed t z) (he : e ∈ predicatePlaces) (hg : IsLayout g) : ∀ᶠ n in atTop,
    (subject n).Reads e (g ++ (t.print.toList ++ z)) (t, []) Expected.afterType z := by
  obtain ⟨hkind, hreads⟩ := h.at_place (finds_predicate e he).1 hg
  by_cases hfor : t.opening = .kwFor
  · -- the binder is read before it is known to belong to a function pointer
    filter_upwards [(tendsto_add_atTop_nat 2).eventually hreads] with n hn taken
    obtain ⟨taken', hrun⟩ := hn taken
    refine ⟨taken', ?_⟩
    have hkind' : (Scan.mk taken (g ++ (t.print.toList ++ z)) e).next.kind = .kwFor :=
      hkind.trans hfor
    rw [ty, bareTy, run_peek_bind, hkind', if_neg (by decide), run_peek_bind, hkind'] at hrun
    obtain ⟨ls, s₁, hbinder, hfn⟩ := run_bind_eq_ok.mp hrun
    rw [Grammar.subject, run_peek_bind, hkind', if_pos rfl, run_bind_of_ok hbinder, run_peek_bind]
    have hmem := kind_of_fnPtr hfn
    simp only [List.mem_cons, List.not_mem_nil, or_false] at hmem
    rcases hmem with hmem | hmem | hmem <;> rw [hmem] <;> exact run_bind_of_ok hfn _
  · filter_upwards [hreads] with n hn
    rw [Grammar.subject]
    refine .peek hkind ?_
    rw [if_neg hfor]
    exact .map hn

/-- A subject under a binder. -/
theorem Typed.subject_bound (h : Typed t z)
    (hop : t.opening ∉ [Terminal.kwFor, .kwUnsafe, .kwExtern, .kwFn])
    (hls : ∀ l ∈ ls, IsLifetime l.name.toList) (hne : ls ≠ []) (he : e ∈ predicatePlaces)
    (hg : IsLayout g) : ∀ᶠ n in atTop,
    (Grammar.subject n).Reads e (g ++ ((printBinder ls).toList ++ (t.print.toList ++ z)))
      (t, ls) Expected.afterType z := by
  have hall : ∀ κ ∈ Expected.type, κ ∉ [Terminal.kwFor, .kwUnsafe, .kwExtern, .kwFn] →
      κ ∈ Expected.afterBinder := by
    decide
  obtain ⟨-, hfor, hident, -⟩ := finds_predicate e he
  obtain ⟨hof, hbinder⟩ := binder_reads (z := t.print.toList ++ z) hls hne hfor hident hg
  obtain ⟨hkind, hreads⟩ := h Expected.afterBinder (by decide) (hall _ t.opening_mem hop) [' ']
    isLayout_space
  -- Behind a binder, only a qualified path is read by a rule of its own.
  by_cases hlt : t.opening = .lt
  · filter_upwards [hbinder, (tendsto_add_atTop_nat 1).eventually hreads] with n hbinder hn
    rw [Grammar.subject]
    refine .peek_token hof ?_
    rw [if_pos rfl]
    refine hbinder.bind (.peek (hkind.trans hlt) ?_)
    exact .map (f := (·, ls)) (qualifiedTy_of_ty (hkind.trans hlt) hn)
  · filter_upwards [hbinder, (tendsto_add_atTop_nat 2).eventually hreads] with n hbinder hn
    have hplain := plainTy_of_ty (by rw [hkind]; simpa [hlt] using hop) hn
    simp only [List.mem_cons, List.not_mem_nil, or_false, not_or] at hop
    rw [Grammar.subject]
    refine .peek_token hof ?_
    rw [if_pos rfl]
    refine hbinder.bind (.peek hkind ?_)
    split
    · exact absurd ‹_› hop.2.1
    · exact absurd ‹_› hop.2.2.1
    · exact absurd ‹_› hop.2.2.2
    · exact absurd ‹_› hlt
    · exact .map (f := (·, ls)) hplain

/-- The bounds of a predicate, or none. -/
def PredicateBounds (bs : List Bound) (z : List Char) : Prop :=
  bs = [] ∧ (∀ e, (Next.of e z).kind ∉ Expected.bound) ∨ bs ≠ [] ∧ BoundsRead bs z

/-- What is written behind a subject. -/
def boundChars (bounds : String) (unbounded : Bool) : List Char :=
  ':' :: if unbounded then [] else ' ' :: bounds.toList

theorem printBounded_toList (subject bounds : String) (unbounded : Bool) :
    (printBounded subject bounds unbounded).toList = subject.toList ++
      boundChars bounds unbounded := by
  cases unbounded <;> simp [printBounded, boundChars]

/-- A predicate in front of `z`. -/
def PredicateRead (p : Predicate) (z : List Char) : Prop :=
  ∀ e ∈ predicatePlaces,
    Listed predicate [.comma, .semi] Expected.predicate.contains e p.print.toList p z

/-- A predicate as one of an open list. -/
theorem PredicateRead.listed {p : Predicate} (h : PredicateRead p z) :
    Listed predicate [.comma] Expected.predicate.contains Expected.predicate p.print.toList p z :=
  (h _ (by decide)).weaken (by simp)

theorem boundsOrNone_reads {bs : List Bound} (h : PredicateBounds bs z) :
    ∃ e', (∀ κ ∈ [Terminal.comma, .semi], finds e' κ = true) ∧ ∀ᶠ n in atTop,
      (boundsOrNone n).Reads Expected.predicateBound
      ((boundChars (printBounds bs) bs.isEmpty).tail ++ z) bs e' z := by
  rcases h with ⟨rfl, hz⟩ | ⟨hne, h⟩
  · refine ⟨Expected.predicateBound, by decide, .of_forall fun n => ?_⟩
    rw [boundsOrNone]
    refine .peek rfl ?_
    rw [if_neg (by simpa [boundChars] using hz _)]
    exact .pure _
  · have htext : (boundChars (printBounds bs) bs.isEmpty).tail ++ z =
        [' '] ++ ((Text.join " + " (printEachBound bs)).toList ++ z) := by
      simp [boundChars, hne, printBounds, printEachBound_eq_map]
    refine ⟨Expected.afterType, by decide, ?_⟩
    rw [htext]
    filter_upwards [h.reads (e := Expected.predicateBound) (by decide) isLayout_space] with n hn
    rw [boundsOrNone]
    refine .peek rfl ?_
    rw [if_pos (by simpa using (h _ (by decide)).1 _ isLayout_space)]
    exact hn

/-- The colon behind the subject of a predicate. -/
theorem of_boundColon (text : String) (isEmpty : Bool) (he : .colon ∈ e)
    (hz : z.head? ≠ some ':') : Next.of e (boundChars text isEmpty ++ z) =
      .token ⟨.colon, [], [':']⟩ ((boundChars text isEmpty).tail ++ z) := by
  have hhead : ((boundChars text isEmpty).tail ++ z).head? ≠ some ':' := by
    rw [boundChars, List.tail_cons]
    split <;> simp [hz]
  exact of_colon (g := []) he isLayout_nil hhead

/-- A predicate is read once its subject is. -/
theorem PredicateRead.of_subject {bs : List Bound}
    (h : ∀ e ∈ predicatePlaces, ∀ g, IsLayout g → (Next.of e (g ++ ((printBinder ls).toList ++
        (t.print.toList ++ (boundChars (printBounds bs) bs.isEmpty ++ z))))).kind ∈ Expected.type ∧
      ∀ᶠ n in atTop, (subject n).Reads e (g ++ ((printBinder ls).toList ++
        (t.print.toList ++ (boundChars (printBounds bs) bs.isEmpty ++ z))))
        (t, ls) Expected.afterType (boundChars (printBounds bs) bs.isEmpty ++ z))
    (hbs : PredicateBounds bs z) (hz : z.head? ≠ some ':') : PredicateRead (.type t bs ls) z := by
  intro e he g hg
  have htext : (Predicate.type t bs ls).print.toList ++ z = (printBinder ls).toList ++
      (t.print.toList ++ (boundChars (printBounds bs) bs.isEmpty ++ z)) := by
    simp [Predicate.print, printBounded_toList]
  have hcolon := of_boundColon (e := Expected.afterType) (printBounds bs) bs.isEmpty (by decide) hz
  obtain ⟨e', hseps, hbounds⟩ := boundsOrNone_reads hbs
  obtain ⟨hkind, hsubject⟩ := h e he g hg
  -- What starts a type is no lifetime.
  have hall : ∀ κ ∈ Expected.type, Expected.predicate.contains κ = true ∧ κ ≠ .lifetime := by decide
  obtain ⟨hstarts, hlifetime⟩ := hall _ hkind
  rw [htext]
  refine ⟨hstarts, e', hseps, ?_⟩
  filter_upwards [hsubject, hbounds] with n hsubject hbounds
  rw [predicate]
  refine .peek rfl ?_
  rw [if_neg hlifetime]
  exact hsubject.bind (.token hcolon (.map hbounds))

theorem PredicateRead.type {bs : List Bound}
    (h : Typed t (boundChars (printBounds bs) bs.isEmpty ++ z))
    (hop : ls ≠ [] → t.opening ∉ [Terminal.kwFor, .kwUnsafe, .kwExtern, .kwFn])
    (hls : ∀ l ∈ ls, IsLifetime l.name.toList) (hbs : PredicateBounds bs z)
    (hz : z.head? ≠ some ':') : PredicateRead (.type t bs ls) z := by
  refine .of_subject (fun e he g hg => ?_) hbs hz
  obtain ⟨htype, hfor, hident, -⟩ := finds_predicate e he
  by_cases hne : ls = []
  · subst hne
    refine ⟨?_, h.subject he hg⟩
    have hkind := (h.at_place htype hg).1
    exact hkind ▸ t.opening_mem
  · refine ⟨?_, h.subject_bound (hop hne) hls hne he hg⟩
    obtain ⟨hof, -⟩ := binder_reads
      (z := t.print.toList ++ (boundChars (printBounds bs) bs.isEmpty ++ z))
      hls hne hfor hident hg
    rw [kind_of_eq hof]
    decide

/-- Lifetimes with plus signs between them. -/
theorem lifetimes_listed (hls : ∀ l ∈ ls, IsLifetime l.name.toList) (hne : ls ≠ [])
    (hbreaks : Breaks z) (hz : ∀ e, (Next.of e z).kind ≠ .plus)
    (he : e ∈ [[Terminal.lifetime], Expected.predicateLifetime]) :
    PlusListed (fun _ => do return Lifetime.mk (← token .lifetime Expected.afterLifetime))
      [.lifetime] e Expected.afterLifetime (printLifetimes ls).toList ls z := by
  have hall : ∀ e ∈ [[Terminal.lifetime], Expected.predicateLifetime], .lifetime ∈ e := by decide
  have hone : ∀ l : Lifetime, IsLifetime l.name.toList → ∀ e, .lifetime ∈ e → ∀ z, Breaks z →
      ∀ g, IsLayout g → ∀ᶠ _ in atTop (α := Nat), (do
        return Lifetime.mk (← token .lifetime Expected.afterLifetime)).Reads e
          (g ++ (l.name.toList ++ z)) l Expected.afterLifetime z := by
    intro l hl e he z hz g hg
    refine .of_forall fun _ => .token (of_lifetime hl he hg hz) ?_
    rw [String.ofList_toList]
    exact .pure _
  induction ls generalizing e with
  | nil => exact absurd rfl hne
  | cons l ls ih =>
    have hl := hls l (by simp)
    cases ls with
    | nil => exact .single (hone l hl e (hall e he) z hbreaks) (hz _)
    | cons l' ls =>
      rw [printLifetimes, List.map_cons, List.map_cons, join_cons_cons]
      exact .cons (hone l hl e (hall e he) _ (by simp [Breaks, isBreak])) (by decide)
        (ih (fun l'' hl'' => hls l'' (by simp [hl''])) (by simp) (by simp))

/-- Lifetimes in print begin with one, and a break stands behind it. -/
theorem first_of_lifetimes (hls : ∀ l ∈ ls, IsLifetime l.name.toList) (hne : ls ≠ [])
    (hbreaks : Breaks z) : ∃ (l : Lifetime) (y : List Char),
      (printLifetimes ls).toList ++ z = l.name.toList ++ y ∧ IsLifetime l.name.toList ∧
        Breaks y := by
  obtain ⟨l, ls, rfl⟩ := List.exists_cons_of_ne_nil hne
  cases ls with
  | nil => exact ⟨l, z, rfl, hls l (by simp), hbreaks⟩
  | cons l' ls =>
    refine ⟨l, " + ".toList ++ ((Text.join " + " (l'.name :: ls.map Lifetime.name)).toList ++ z),
      ?_, hls l (by simp), ?_⟩
    · simp [printLifetimes, join_cons_cons]
    · simp [Breaks, isBreak]

/-- The lifetimes behind the colon of a predicate, or none. -/
theorem lifetimesOrNone_reads (hls : ∀ l ∈ ls, IsLifetime l.name.toList) (hbreaks : Breaks z)
    (hkinds : ∀ e, (Next.of e z).kind ∉ [Terminal.plus, .lifetime]) :
    ∃ e', (∀ κ ∈ [Terminal.comma, .semi], finds e' κ = true) ∧ ∀ᶠ n in atTop,
      (lifetimesOrNone n).Reads Expected.predicateLifetime
        ((boundChars (printLifetimes ls) ls.isEmpty).tail ++ z) ls e' z := by
  by_cases hne : ls = []
  · subst hne
    refine ⟨Expected.predicateLifetime, by decide, .of_forall fun n => ?_⟩
    rw [lifetimesOrNone]
    refine .peek rfl ?_
    rw [if_neg]
    · exact .pure _
    · intro hk
      refine hkinds Expected.predicateLifetime ?_
      rw [show (Next.of Expected.predicateLifetime z).kind = .lifetime from hk]
      decide
  · have htail : (boundChars (printLifetimes ls) ls.isEmpty).tail ++ z =
      [' '] ++ ((printLifetimes ls).toList ++ z) := by
      simp [boundChars, hne]
    have hplus : ∀ e, (Next.of e z).kind ≠ .plus := by
      intro e hk
      refine hkinds e ?_
      rw [hk]
      decide
    have hlisted := lifetimes_listed hls hne hbreaks hplus
      (e := Expected.predicateLifetime) (by simp) [' '] isLayout_space
    obtain ⟨l, y, hfirst, hl, hy⟩ := first_of_lifetimes hls hne hbreaks
    have hof := of_lifetime (e := Expected.predicateLifetime) hl (by decide) isLayout_space hy
    refine ⟨Expected.afterLifetime, by decide, ?_⟩
    rw [htail]
    filter_upwards [hlisted, eventually_ge_atTop ls.length] with n hn hk
    rw [lifetimesOrNone]
    refine .peek (κ := .lifetime) ?_ ?_
    · rw [hfirst]
      exact kind_of_eq hof
    · rw [if_pos rfl]
      exact hn n hk

theorem PredicateRead.lifetime {l : Lifetime} (hl : IsLifetime l.name.toList)
    (hls : ∀ l ∈ ls, IsLifetime l.name.toList) (hbreaks : Breaks z) (hz : z.head? ≠ some ':')
    (hkinds : ∀ e, (Next.of e z).kind ∉ [Terminal.plus, .lifetime]) :
    PredicateRead (.lifetime l ls) z := by
  intro e he g hg
  have htext : (Predicate.lifetime l ls).print.toList ++ z =
      l.name.toList ++ (boundChars (printLifetimes ls) ls.isEmpty ++ z) := by
    simp [Predicate.print, printBounded_toList]
  have hof := of_lifetime (z := boundChars (printLifetimes ls) ls.isEmpty ++ z) hl
    (finds_predicate e he).2.2.2 hg (by simp [Breaks, boundChars, isBreak])
  have hcolon := of_boundColon (e := [.colon]) (printLifetimes ls) ls.isEmpty (by decide) hz
  obtain ⟨e', hseps, hbounds⟩ := lifetimesOrNone_reads hls hbreaks hkinds
  rw [htext]
  refine ⟨by rw [kind_of_eq hof]; decide, e', hseps, ?_⟩
  filter_upwards [hbounds] with n hbounds
  rw [predicate]
  refine .peek_token hof ?_
  rw [if_pos rfl]
  refine .shift hof (.token hcolon ?_)
  rw [String.ofList_toList]
  exact .map hbounds

end Grammar
end ShadowImpl
