import ShadowImpl.Proofs.Phrases
import ShadowImpl.Proofs.PrintedPredicates

/-!
# Plain syntax and what stands behind it
-/

namespace ShadowImpl

open Filter Lexeme Recogniser Reading

/-! ## Plain syntax -/

namespace Part

mutual

/-- The label of the part and those of all parts in it. -/
def labels : Part → List Label
  | node label children => label :: labelsEach children

def labelsEach : List Child → List Label
  | [] => []
  | ⟨_, part⟩ :: children => part.labels ++ labelsEach children

end

/-- Every label of the part satisfies `p`. -/
def All (p : Label → Prop) (part : Part) : Prop :=
  ∀ l ∈ part.labels, p l

/-- All labels of the children satisfy `p`. -/
def AllEach (p : Label → Prop) (children : List Child) : Prop :=
  ∀ l ∈ labelsEach children, p l

variable {p : Label → Prop}

/-- A node satisfies what it and its children do. -/
@[simp] theorem all_node (label : Label) (children : List Child) :
    (node label children).All p ↔ p label ∧ AllEach p children := by
  rw [All, labels, List.forall_mem_cons, AllEach]

@[simp] theorem allEach_nil : AllEach p [] := by
  simp [AllEach, labelsEach]

@[simp] theorem allEach_cons (role : Role) (part : Part) (children : List Child) :
    AllEach p (⟨role, part⟩ :: children) ↔ part.All p ∧ AllEach p children := by
  rw [AllEach, labelsEach, List.forall_mem_append, All, AllEach]

@[simp] theorem allEach_append (children more : List Child) :
    AllEach p (children ++ more) ↔ AllEach p children ∧ AllEach p more := by
  induction children with
  | nil => simp
  | cons child children ih =>
    obtain ⟨role, part⟩ := child
    simp [ih, and_assoc]

@[simp] theorem allEach_viewTys (role : Role) (ts : List Ty) :
    AllEach p (viewTys role ts) ↔ ∀ t ∈ ts, t.view.All p := by
  induction ts with
  | nil => simp [viewTys]
  | cons t ts ih => simp [viewTys, ih]

@[simp] theorem allEach_viewOutput (output : Option Ty) :
    AllEach p (viewOutput output) ↔ ∀ t ∈ output, t.view.All p := by
  cases output <;> simp [viewOutput]

@[simp] theorem allEach_viewAsTrait (asTrait : Option Path) :
    AllEach p (viewAsTrait asTrait) ↔ ∀ q ∈ asTrait, q.view.All p := by
  cases asTrait <;> simp [viewAsTrait]

@[simp] theorem allEach_viewArgs (args : Option PathArgs) :
    AllEach p (viewArgs args) ↔ ∀ a ∈ args, a.view.All p := by
  cases args <;> simp [viewArgs]

@[simp] theorem allEach_viewFnArgs (args : List FnArg) :
    AllEach p (viewFnArgs args) ↔ ∀ a ∈ args, p (.fnArg a.name) ∧ a.ty.view.All p := by
  induction args with
  | nil => simp [viewFnArgs]
  | cons a args ih =>
    obtain ⟨name, t⟩ := a
    simp [viewFnArgs, ih]

@[simp] theorem allEach_viewGenericArgs (args : List GenericArg) :
    AllEach p (viewGenericArgs args) ↔ ∀ a ∈ args, a.view.All p := by
  induction args with
  | nil => simp [viewGenericArgs]
  | cons a args ih => simp [viewGenericArgs, ih]

@[simp] theorem allEach_viewBounds (bounds : List Bound) :
    AllEach p (viewBounds bounds) ↔ ∀ b ∈ bounds, b.view.All p := by
  induction bounds with
  | nil => simp [viewBounds]
  | cons b bounds ih => simp [viewBounds, ih]

end Part

/-- No name that is spelled like a keyword, and no array length that ends in a line of
documentation. -/
def Label.Plain : Label → Prop
  | .segment name | .binding name | .constraint name | .fnArg (some name) =>
    ∀ κ ∈ Terminal.keywords, κ.spelling ≠ name.toList
  | .arrayTy length => ¬ EndsInLineDoc length.toList
  | _ => True

/-! ## What may stand behind a type -/

variable {s s' : Scan} {z r : List Char} {c : Char}

/-- A text that may stand behind a type: it starts with a break, and neither with arguments nor with
an arrow. -/
structure Ends (z : List Char) : Prop where
  breaks : Breaks z
  slash : (z.dropWhile isLayout).head? ≠ some '/'
  opens : ∀ κ ∈ [Terminal.lt, .lpar, .arrow], ¬ Opens κ z

/-- At the end of the text nothing goes on with a type. -/
theorem Ends.nil : Ends [] where
  breaks := fun c hc => by simp at hc
  slash := by simp
  opens := by simp [Opens, Terminal.spelling]

/-- What goes on with a type is told by its first character behind the layout. -/
theorem Ends.of_lead (hz : Breaks z) (hlead : z.dropWhile isLayout = c :: r)
    (hc : c ∉ ['/', '<', '(', '-']) : Ends z where
  breaks := hz
  slash := by
    rw [hlead]
    rintro h
    obtain rfl : c = '/' := by simpa using h
    simp at hc
  opens := by
    simp only [List.mem_cons, List.not_mem_nil, or_false, not_or] at hc
    simp [Opens, hlead, Terminal.spelling, List.cons_prefix_cons, Ne.symm hc.2.1, Ne.symm hc.2.2.1,
      Ne.symm hc.2.2.2]

/-- No arguments and no output follow, whatever is expected. -/
theorem Ends.kind_ne (h : Ends z) (e : Expectation) {κ : Terminal}
    (hκ : κ ∈ [Terminal.lt, .lpar, .arrow]) : (Next.of e z).kind ≠ κ := by
  have hall : ∀ κ ∈ [Terminal.lt, .lpar, .arrow], κ ∈ Terminal.keywords ++
    Terminal.symbols := by decide
  exact kind_ne_of_not_opens (hall κ hκ) h.slash (h.opens κ hκ)

/-- A text that can take the place of what stands next in a scan: it goes on with a bound or a path
only if that does, and closes nothing that stays open there. -/
structure Continues (s : Scan) (z : List Char) : Prop where
  ends : Ends z
  plus : Opens .plus z → s.next.kind = .plus
  sep : Opens .pathSep z → s.next.kind = .pathSep
  quiet : Quiet s.rest z

/-- A comma or a closing bracket. -/
theorem Continues.front (hc : c ∈ [',', '>', ')', ']', ';']) (hq : Quiet s.rest (c :: r)) :
    Continues s (c :: r) := by
  obtain ⟨hbreak, hlayout, hbad, hplus, hcolon⟩ : isBreak c = true ∧ isLayout c = false ∧
      c ∉ ['/', '<', '(', '-'] ∧ c ≠ '+' ∧ c ≠ ':' := by
    simp only [List.mem_cons, List.not_mem_nil, or_false] at hc
    rcases hc with rfl | rfl | rfl | rfl | rfl <;> decide
  have hlead : (c :: r).dropWhile isLayout = c :: r := List.dropWhile_cons_of_neg
    (by simp [hlayout])
  refine ⟨.of_lead (by simpa [Breaks] using hbreak) hlead hbad, fun h => ?_, fun h => ?_, hq⟩
  · rw [Opens, hlead] at h
    exact absurd (List.cons_prefix_cons.mp h).1.symm hplus
  · rw [Opens, hlead] at h
    exact absurd (List.cons_prefix_cons.mp h).1.symm hcolon

theorem Continues.kind_ne_plus (h : Continues s z) (hk : s.next.kind ≠ .plus) (e : Expectation) :
    (Next.of e z).kind ≠ .plus :=
  kind_ne_of_not_opens (by decide) h.ends.slash fun ho => hk (h.plus ho)

theorem Continues.kind_ne_sep (h : Continues s z) (hk : s.next.kind ≠ .pathSep) (e : Expectation) :
    (Next.of e z).kind ≠ .pathSep :=
  kind_ne_of_not_opens (by decide) h.ends.slash fun ho => hk (h.sep ho)

/-- A `::` ends the arguments in front of it. -/
theorem Ends.of_sep : Ends (Terminal.pathSep.spelling ++ r) :=
  .of_lead (c := ':') (r := ':' :: r) (by simp [Breaks, Terminal.spelling, isBreak]) rfl (by decide)

/-- Behind a path segment, in front of the next one. -/
theorem Continues.sep_front (h : s.next.kind = .pathSep) (hq : Quiet s.rest r) :
    Continues s (Terminal.pathSep.spelling ++ r) := by
  have hlead : (Terminal.pathSep.spelling ++ r).dropWhile isLayout = ':' :: ':' :: r := rfl
  refine ⟨.of_sep, fun ho => ?_, fun _ => h, hq.text (by decide)⟩
  rw [Opens, hlead] at ho
  simp [Terminal.spelling, List.cons_prefix_cons] at ho

/-- Behind a subject, in front of its colon. -/
theorem Continues.colon_front (hr : r.head? ≠ some ':') (hq : Quiet s.rest r) :
    Continues s (':' :: r) := by
  have hlead : (':' :: r).dropWhile isLayout = ':' :: r := rfl
  refine ⟨.of_lead (by simp [Breaks, isBreak]) hlead (by decide), fun ho => ?_, fun ho => ?_,
    hq.text (w := [':']) (by decide)⟩
  · rw [Opens, hlead] at ho
    simp [Terminal.spelling, List.cons_prefix_cons] at ho
  · rw [Opens, hlead, Terminal.spelling, List.cons_prefix_cons] at ho
    obtain ⟨r', hr'⟩ := ho.2
    exact absurd (by rw [← hr']; rfl) hr

/-- Behind a bound, in front of the next one. -/
theorem Continues.plus_front (h : s.next.kind = .plus) (hq : Quiet s.rest r) :
    Continues s (" + ".toList ++ r) := by
  have hlead : (" + ".toList ++ r).dropWhile isLayout = '+' :: ' ' :: r := rfl
  refine ⟨.of_lead (by simp [Breaks, isBreak]) hlead (by decide), fun _ => h, fun ho => ?_,
    hq.text (by decide)⟩
  rw [Opens, hlead] at ho
  simp [Terminal.spelling, List.cons_prefix_cons] at ho

/-- Behind a self type, in front of its trait. -/
theorem Continues.as_front (hq : Quiet s.rest r) :
    Continues s (' ' :: (Terminal.kwAs.spelling ++ r)) := by
  have hlead : (' ' :: (Terminal.kwAs.spelling ++ r)).dropWhile isLayout = 'a' :: 's' :: r := rfl
  refine ⟨.of_lead (by simp [Breaks, isBreak]) hlead (by decide), fun ho => ?_, fun ho => ?_,
    hq.text (w := ' ' :: Terminal.kwAs.spelling) (by decide)⟩
  all_goals
    rw [Opens, hlead] at ho
    simp [Terminal.spelling, List.cons_prefix_cons] at ho

/-! ## First tokens -/

/-- A projection changes no first token: a name is projected onto a path that starts with it. -/
theorem Ty.opening_project (projected : List String) (t : Ty) :
    (t.project projected).opening = t.opening := by
  cases t with
  | path p =>
    rw [Ty.project]
    split
    · rename_i ident hident
      split
      · obtain ⟨segs, rooted⟩ := p
        have hrooted : rooted = false := by
          cases rooted with
          | false => rfl
          | true => simp [Path.ident?] at hident
        subst hrooted
        rfl
      · rfl
    · rfl
  | fnPtr ls isUnsafe abi inputs output =>
    cases ls <;> cases isUnsafe <;> cases abi <;> rw [Ty.project] <;> rfl
  | _ => rw [Ty.project] <;> rfl

end ShadowImpl
