import ShadowImpl.Proofs.Records
import ShadowImpl.Proofs.Regions
import ShadowImpl.Proofs.Slices
import ShadowImpl.Proofs.Stages

/-!
# No input stops the engine

The careful engine takes the steps of the plain one, and makes the checks that might stop it. None
of them ever does: each step of the careful engine comes to what it comes to in the plain one.
-/

namespace ShadowImpl

/-! ## Steps that are not stopped -/

namespace Step

variable {α β γ : Type}

theorem check_ok (a : α) : check (.ok a) = of (.ok a) := rfl

theorem of_ok_bind (a : α) (f : α → Step β) : (of (.ok a) >>= f) = f a := rfl

/-- Steps one after the other, none of which is stopped. -/
theorem of_bind {x : Except Fault α} {f : α → Step β} {g : α → Except Fault β}
    (h : ∀ a, x = .ok a → f a = of (g a)) : (of x >>= f) = of (x >>= g) := by
  cases x with
  | ok a => exact h a rfl
  | error e => rfl

/-- Steps that the checks let pass are folded as they are without them. -/
theorem of_foldlM {f : β → α → Step β} {g : β → α → Except Fault β}
    (h : ∀ b a, f b a = of (g b a)) (as : List α) (b : β) : as.foldlM f b = of (as.foldlM g b) := by
  induction as generalizing b with
  | nil => rfl
  | cons a as ih =>
    rw [List.foldlM_cons, List.foldlM_cons, h]
    exact of_bind fun b' _ => ih b'

/-- So they are where they are taken for each element of a list. -/
theorem of_mapM {f : α → Step β} {g : α → Except Fault β} (h : ∀ a, f a = of (g a)) (as : List α) :
    as.mapM f = of (as.mapM g) := by
  induction as with
  | nil => rfl
  | cons a as ih =>
    rw [List.mapM_cons, List.mapM_cons, h, ih]
    exact of_bind fun b _ => of_bind fun bs _ => rfl

end Step

namespace Engine

variable {α : Type}

theorem settle_careful (x : Except Fault α) : (settle x : Step α) = .of x := rfl

/-- A check that gives the answer stops nothing. -/
theorem confirm_careful {answer : α} {check : Except Abort α} (h : check = .ok answer) :
    (confirm answer check : Step α) = .of (.ok answer) := by
  subst h
  rfl

end Engine

/-- A list of checks that all pass. -/
theorem mapM_check {α β : Type} {f : α → Except Abort β} {g : α → β} (h : ∀ a, f a = .ok (g a))
    (as : List α) : as.mapM f = .ok (as.map g) := by
  induction as with
  | nil => rfl
  | cons a as ih =>
    rw [List.mapM_cons, h, ih]
    rfl

/-! ## Reading -/

/-- There is a handler for each node of the grammar. -/
theorem Grammar.forM_dispatch : nodes.forM dispatch = .ok () := by
  decide +kernel

namespace Reading

variable {α : Type}

/-- A careful reading is not stopped. -/
theorem Careful.runChecked {Q : Nat → Prop} {r : Reading α} {s : Scan} {κ : Option Terminal}
    (h : r.Careful Q s.taken.length κ) (hκ : ∀ t, κ = some t → s.next.kind = t) :
    r.runChecked s = .ok (r.run s) := by
  -- By induction on the steps. Only a slice can be refused, and it begins where a token has been
  -- taken.
  induction r generalizing s κ with
  | done a => rfl
  | refuse => rfl
  | look k ih =>
    have hkind : (k s.next.kind).Careful Q s.taken.length (some s.next.kind) := by
      cases κ with
      | none => exact h s.next.kind
      | some t =>
        obtain rfl := hκ t rfl
        exact h
    exact ih _ hkind fun t ht => Option.some.inj ht
  | take e k ih =>
    rw [Reading.runChecked, run]
    cases s.next with
    | token t rest => exact ih _ (h _) fun _ ht => by simp at ht
    | ended | unknown => rfl
  | count k ih => exact ih _ h hκ
  | text i k ih =>
    rw [Reading.runChecked, if_pos h.1]
    exact ih _ (h.2 _) hκ

/-- A reading that slices no text without tokens and folds no arguments onto nothing is not stopped.
-/
theorem parseChecked_eq {reading : Nat → Reading α} (start : Expectation) (text : List Char)
    (h : ∀ n, (reading n).Safe 0) :
    parseChecked reading start text = .ok (parse reading start text) := by
  have hwhole : (whole reading (depth text)).Safe 0 := by
    rw [whole]
    exact .bind (h _) fun _ => .bind safe_finish fun _ => safe_pure _
  have hrun := (hwhole 0 none (Nat.le_refl 0)).runChecked (s := .start start text) (by simp)
  rw [parseChecked, Grammar.forM_dispatch, hrun, parse]
  cases (whole reading (depth text)).run (.start start text) <;> rfl

end Reading

namespace Source

variable {α β : Type}

theorem parseM_careful (s : Source) (goal : Goal) (start : Expectation) {reading : Nat → Reading α}
    (place : (Extent → Location) → α → β) (h : ∀ n, (reading n).Safe 0) :
    (s.parseM goal start reading place : Step β) = .of (s.parse goal start reading place) := by
  rw [parseM, Engine.confirm_careful (Reading.parseChecked_eq start s.chars h), parse, parseM]
  refine Step.of_bind fun x _ => ?_
  cases x <;> rfl

open Grammar Reading in
/-- The checks let every reading of a source pass, whatever is read. -/
theorem implBlockM_careful (s : Source) : (s.implBlockM : Step _) = .of s.implBlock :=
  parseM_careful s _ _ _ fun n => (advances_implBlock n).safe

open Grammar Reading in
theorem itemM_careful (s : Source) : (s.itemM : Step _) = .of s.item :=
  parseM_careful s _ _ _ fun n => .bind (safe_attributes n) fun as => (advances_item as n).safe

open Grammar Reading in
theorem metasM_careful (s : Source) : (s.metasM : Step _) = .of s.metas :=
  parseM_careful s _ _ _ fun n => safe_openList (fun _ => (advances_metaItem n).safe) n

open Grammar Reading in
theorem namesM_careful (s : Source) : (s.namesM : Step _) = .of s.names :=
  parseM_careful s _ _ _ fun n => safe_openList (fun _ => (advances_token _ _).safe) n

open Grammar in
theorem predicatesM_careful (s : Source) : (s.predicatesM : Step _) = .of s.predicates :=
  parseM_careful s _ _ _ fun n => safe_predicates _ n

end Source

/-! ## Directives -/

namespace Directive

/-- A directive is collected without being stopped. -/
theorem followM_careful (s : Source) (d : Directive) (m : Meta Location) :
    (followM s d m : Step _) = .of (follow s d m) := by
  rcases m with ⟨path, form, place⟩
  simp only [followM, follow]
  cases Keyword.ofPath? path with
  | none => rfl
  | some keyword =>
    cases form with
    | word | value => cases keyword <;> rfl
    | list args group =>
      cases keyword with
      | transformBounds =>
        simp only [Source.namesM_careful]
        exact Step.of_bind fun names _ => rfl
      | addBounds =>
        simp only [Source.predicatesM_careful]
        exact Step.of_bind fun predicates _ => rfl

theorem parseM_careful (s : Source) : (parseM s : Step _) = .of (parse s) := by
  rw [parseM, Source.metasM_careful]
  exact Step.of_bind fun ms _ => Step.of_foldlM (followM_careful s) ms {}

end Directive

/-! ## Printing and projecting -/

/-- Every type can be printed. -/
theorem Ty.printChecked_eq (t : Ty) : t.printChecked = .ok t.print := by
  rw [printChecked, Record.ty_record]
  rfl

theorem GenericParam.printChecked_eq (p : GenericParam) : p.printChecked = .ok p.print := by
  rw [printChecked, Record.genericParam_record]
  rfl

theorem Predicate.printChecked_eq (p : Predicate) : p.printChecked = .ok p.print := by
  rw [printChecked, Record.predicate_record]
  rfl

/-- Every predicate can be projected. -/
theorem Predicate.projectChecked_eq (projected : List String) (p : Predicate) :
    p.projectChecked projected = .ok (p.project projected) := by
  rw [projectChecked, Record.predicate_record]
  rfl

namespace Generics

/-- The generics of a block and of a method can be projected under any directive. -/
theorem projectChecked_eq (g : Generics) (d : Directive) :
    g.projectChecked d = .ok (g.project d) := by
  rw [projectChecked, project]
  split
  · rfl
  · rw [mapM_check (Predicate.projectChecked_eq d.projected)]
    rfl

/-- So they can be printed. -/
theorem printChecked_eq (g : Generics) :
    g.printChecked = .ok (g.params.map GenericParam.print, g.predicates.map Predicate.print) := by
  rw [printChecked, mapM_check GenericParam.printChecked_eq, mapM_check Predicate.printChecked_eq]
  rfl

end Generics

/-- Every block can be rendered. -/
theorem ImplBlock.renderChecked_eq {σ : Type} (b : ImplBlock σ) :
    b.renderChecked = .ok b.render := by
  rw [renderChecked, Generics.printChecked_eq, Ty.printChecked_eq,
    mapM_check fun m : Method σ => m.generics.printChecked_eq]
  rfl

/-! ## Methods -/

namespace Method

/-- A directive is collected without being stopped. -/
theorem followM_careful (s : Source) (d : Directive) (a : Attribute Location) :
    (followM s d a : Step _) = .of (follow s d a) := by
  rw [followM, follow, followM]
  split
  · cases a.content.map Meta.form with
    | none => rfl
    | some form =>
      cases form with
      | word | value => rfl
      | list args group =>
        simp only [Directive.parseM_careful]
        exact Step.of_bind fun d' _ => rfl
  · rfl

/-- The directive of a method is found without being stopped. -/
theorem directiveM_careful (s : Source) (m : Method Location) :
    (m.directiveM s : Step _) = .of (m.directive s) :=
  Step.of_foldlM (followM_careful s) m.attrs {}

theorem expandChecked_eq {σ : Type} (m : Method σ) (d : Directive) :
    m.expandChecked d = .ok (m.expand d) := by
  rw [expandChecked, Generics.projectChecked_eq]
  rfl

end Method

/-- Every item is expanded without being stopped. -/
theorem Item.expandM_careful (s : Source) (i : Item Location) :
    (i.expandM s : Step _) = .of (i.expand s) := by
  cases i with
  | verbatim v => exact Step.of_bind fun _ _ => rfl
  | method m =>
    rw [expandM, Method.directiveM_careful]
    refine Step.of_bind fun d _ => ?_
    rw [Engine.confirm_careful (m.expandChecked_eq d)]
    rfl

theorem Source.methodM_careful (s : Source) : (s.methodM : Step _) = .of s.method := by
  rw [methodM, itemM_careful]
  refine Step.of_bind fun i _ => ?_
  cases i <;> rfl

/-! ## Stages -/

namespace Stage

/-- The stages have an order. -/
theorem orderChecked_eq : orderChecked = .ok order := rfl

/-- In the order of the stages, what a stage asks for has been left by then. -/
theorem runAllM_order_careful (t : Task) : (runAllM t order : Step _) = .of (runAll t order) := by
  rw [runAllM, runAll_order, order_eq]
  simp only [List.foldlM_cons, List.foldlM_nil, runM, foundM, Directive.parseM_careful, left,
    Step.of_mapM (Item.expandM_careful _), Engine.settle_careful,
    Engine.confirm_careful (Generics.projectChecked_eq _ _),
    Engine.confirm_careful (ImplBlock.renderChecked_eq _),
    Engine.confirm_careful (Ty.printChecked_eq _), Step.of_ok_bind]
  cases Directive.parse t.args with
  | error f => rfl
  | ok d =>
    simp only [Step.of_ok_bind, ok_bind, pure_bind]
    cases t.block.selfTy.shadow (some t.block.selfPlace) with
    | error f => rfl
    | ok selfTy =>
      simp only [Step.of_ok_bind, ok_bind, pure_bind]
      cases t.block.items.mapM (Item.expand t.source) with
      | error f => rfl
      | ok items => rfl

end Stage

/-! ## Entry points -/

/-- What a step ends in, with the texts that a fault may point into. -/
def Outcome.ofStep {α : Type} (sources : Sources) (step : Step α) : Except Abort (Outcome α) := do
  return ⟨sources, ← step.run⟩

theorem Outcome.ofStep_of {α : Type} {step : Step α} {o : Outcome α} (h : step = .of o.result) :
    ofStep o.sources step = .ok o := by
  rw [h]
  rfl

/-- A text that is there is found. -/
theorem Sources.get_of_lookup {s : Sources} {file text : String} (h : s.lookup file = some text) :
    s.get file = .ok text := by
  rw [get, h]

namespace Expansion

/-- Expands a block under a marker with the given arguments, with all checks. -/
def ofItemChecked (args item file : String) : Except Abort (Outcome Expansion) :=
  Outcome.ofStep (itemSources args item file) (ofItemM args item file)

/-- Expands a block that carries its marker, with all checks. -/
def ofSourceChecked (text file : String) : Except Abort (Outcome Expansion) :=
  Outcome.ofStep (Sources.set [] file text) (ofSourceM text file)

/-- A task runs through without being stopped. -/
theorem ofTaskM_careful (t : Task) (given : String) :
    (ofTaskM t given : Step _) = .of (ofTask t given) := by
  rw [ofTaskM, Engine.confirm_careful Stage.orderChecked_eq, Step.of_ok_bind,
    Stage.runAllM_order_careful]
  refine Step.of_bind fun draft hdraft => ?_
  -- the last stage has left a text
  have hemitted : draft.emitted = some draft.block.render := by
    rw [Stage.runAll_order] at hdraft
    obtain ⟨d, -, hdraft⟩ := bind_eq_ok_iff.mp hdraft
    obtain ⟨selfTy, -, hdraft⟩ := bind_eq_ok_iff.mp hdraft
    obtain ⟨items, -, hdraft⟩ := bind_eq_ok_iff.mp hdraft
    obtain rfl := Except.ok.inj hdraft
    rfl
  rw [hemitted]
  rfl

/-- An expansion of an item is stopped by no check. -/
theorem ofItemChecked_eq (args item file : String) :
    ofItemChecked args item file = .ok (ofItem args item file) := by
  have hlookup := Request.lookup_set_args args item file
  refine Outcome.ofStep_of (o := ofItem args item file) ?_
  rw [ofItemM, Source.implBlockM_careful]
  refine Step.of_bind fun block _ => ?_
  have hknown : (itemSources args item file).get file =
      .ok (((itemSources args item file).lookup file).getD item) := by
    rw [itemSources, Sources.get_of_lookup hlookup, hlookup, Option.getD_some]
  simp only [Engine.confirm_careful hknown, ofTaskM_careful, Step.of_ok_bind]
  rfl

/-- Neither is an expansion of a source, -/
theorem ofSourceChecked_eq (text file : String) :
    ofSourceChecked text file = .ok (ofSource text file) := by
  have hlookup : (Sources.set [] file text).lookup file = some text := by simp [Sources.set]
  refine Outcome.ofStep_of (o := ofSource text file) ?_
  rw [ofSourceM, Source.implBlockM_careful]
  refine Step.of_bind fun b _ => Step.of_bind fun p _ => Step.of_bind fun args _ => ?_
  simp only [Engine.confirm_careful (Sources.get_of_lookup hlookup), ofTaskM_careful,
    Step.of_ok_bind]
  rfl

end Expansion

/-- Checks that an item is a method, with all checks of the engine. -/
def checkMethodChecked (item file : String) : Except Abort (Outcome (Method Location)) :=
  Outcome.ofStep (Sources.set [] file item) (Source.methodM ⟨file, item, none⟩)

/-- nor the check of a method. -/
theorem checkMethodChecked_eq (item file : String) :
    checkMethodChecked item file = .ok (checkMethod item file) :=
  Outcome.ofStep_of (o := checkMethod item file) (Source.methodM_careful _)

/-! ## Paths -/

/-- A piece of a path as it stands in a text. -/
inductive PathPiece where
  | segment (s : Segment)
  /-- Arguments after `::`, which belong to the segment in front of them. -/
  | arguments (args : List GenericArg)

/-- Adds a piece to the segments of a path. -/
def PathPiece.addTo (segments : List Segment) : PathPiece → Except Abort (List Segment)
  | segment s => .ok (segments ++ [s])
  | arguments args =>
    match segments.getLast? with
    | some last => .ok (segments.dropLast ++ [⟨last.ident, some (.angle args true)⟩])
    | none => .error .looseArguments

/-- Folds the pieces of a path into segments. -/
def foldPieces (pieces : List PathPiece) : Except Abort (List Segment) :=
  pieces.foldlM PathPiece.addTo []

namespace Grammar

open Reading

mutual

/-- The pieces of a path. -/
def pieces : Nat → Reading (List PathPiece)
  | 0 => refuse
  | n + 1 => do
    let name ← token .ident Expected.afterType
    piecesFrom name n

/-- The pieces of a path whose first name has been taken. -/
def piecesFrom (name : String) : Nat → Reading (List PathPiece)
  | 0 => refuse
  | n + 1 => do
    let args ← segmentArgs n
    return .segment ⟨name, args⟩ :: (← morePieces n)

/-- The pieces after a segment. -/
def morePieces : Nat → Reading (List PathPiece)
  | 0 => refuse
  | n + 1 => do
    if ← optional .pathSep Expected.pathPiece then
      if (← peek) = .lt then
        let args ← angleArgs n
        return .arguments args :: (← morePieces n)
      else pieces n
    else return []

end

end Grammar

theorem Reading.pure_bind {α β : Type} (a : α) (f : α → Reading β) :
    (Pure.pure a : Reading α) >>= f = f a := rfl

namespace Grammar

/-- Folds the pieces that are read onto the segments `front`. -/
def foldedOnto (front : List Segment) (r : Reading (List PathPiece)) :
    Reading (Except Abort (List Segment)) := do
  return (← r).foldlM PathPiece.addTo front

/-- Reads segments behind the segments `front`. -/
def behind (front : List Segment) (r : Reading (List Segment)) :
    Reading (Except Abort (List Segment)) := do
  return .ok (front ++ (← r))

/-- Folding never comes to arguments without a segment, and it gives the segments. -/
theorem folded_eq (n : Nat) :
    (∀ front, foldedOnto front (pieces n) = behind front (segments n)) ∧
    (∀ front name, foldedOnto front (piecesFrom name n) = behind front (segmentsFrom name n)) ∧
    ∀ front last, foldedOnto (front ++ [last]) (morePieces n) = behind front
      (moreSegments last n) := by
  induction n with
  | zero => exact ⟨fun _ => rfl, fun _ _ => rfl, fun _ _ => rfl⟩
  | succ n ih =>
    obtain ⟨ihpieces, ihfrom, ihmore⟩ := ih
    refine ⟨fun front => ?_, fun front name => ?_, fun front last => ?_⟩
    · rw [pieces, segments, foldedOnto, behind, Reading.bind_assoc, Reading.bind_assoc]
      exact congrArg _ (funext fun name => ihfrom front name)
    · rw [piecesFrom, segmentsFrom, foldedOnto, behind, Reading.bind_assoc, Reading.bind_assoc]
      refine congrArg _ (funext fun args => ?_)
      rw [Reading.bind_assoc]
      exact ihmore front ⟨name, args⟩
    · rw [morePieces, moreSegments, foldedOnto, behind, Reading.bind_assoc, Reading.bind_assoc]
      refine congrArg _ (funext fun more => ?_)
      cases more with
      | false => rfl
      | true =>
        simp only [↓reduceIte, Reading.bind_assoc]
        refine congrArg _ (funext fun t => ?_)
        by_cases ht : t = .lt
        · -- the arguments belong to the segment `last`
          have hadd : ∀ args, (PathPiece.arguments args).addTo (front ++ [last]) =
              .ok (front ++ [⟨last.ident, some (.angle args true)⟩]) := by
            simp [PathPiece.addTo]
          simp only [ht, ↓reduceIte, Reading.bind_assoc, Reading.pure_bind, List.foldlM_cons, hadd]
          exact congrArg _ (funext fun args => ihmore front _)
        · simp only [ht, ↓reduceIte, Reading.bind_assoc, Reading.pure_bind]
          have hpieces := ihpieces (front ++ [last])
          simp only [foldedOnto, behind, List.append_assoc] at hpieces
          exact hpieces

end Grammar

/-! ## All or nothing -/

/-- How a run ends: with a value and nothing to report, or without a value and with a single
diagnostic, which has one of the codes for faults of an input. -/
inductive Outcome.Settled {α : Type} (o : Outcome α) : Prop where
  | success (a : α) (hresult : o.result = .ok a) (hreport : o.report.diagnostics = [])
  | failure (d : Diagnostic) (hresult : o.result.toOption = none)
      (hreport : o.report.diagnostics = [d])
      (hcode : d.code ∈ [some "E0001", some "E0101", some "E0102", some "E0103"])

/-- A fault has one of the four codes. -/
theorem Cause.code_mem (c : Cause) : c.category.code ∈ ["E0001", "E0101", "E0102", "E0103"] := by
  cases c with
  | unreadable goal complaint => cases goal <;> simp [category, Goal.isList, Category.code]
  | unknownDirective | directiveWithoutList | missingMarker | duplicateMarker | markerWithValue
  | unsupportedSelfType | markedItem | notMethod => simp [category, Category.code]

theorem Outcome.settled {α : Type} (o : Outcome α) : o.Settled := by
  rcases o with ⟨sources, result⟩
  cases result with
  | ok a => exact .success a rfl rfl
  | error f =>
    refine .failure f.problem.diagnostic rfl rfl ?_
    show some f.cause.category.code ∈ _
    have hcode := f.cause.code_mem
    simpa using hcode

/-- No input stops the engine, whichever way it is asked and whatever the file is called, and every
run is all or nothing. Paths are folded from their pieces, which never leaves arguments without a
segment. -/
theorem engine_never_stops :
    (∀ args item file : String,
      Expansion.ofItemChecked args item file = .ok (Expansion.ofItem args item file) ∧
        (Expansion.ofItem args item file).Settled) ∧
    (∀ text file : String,
      Expansion.ofSourceChecked text file = .ok (Expansion.ofSource text file) ∧
        (Expansion.ofSource text file).Settled) ∧
    (∀ item file : String, checkMethodChecked item file = .ok (checkMethod item file) ∧
      (checkMethod item file).Settled) ∧
    ∀ n : Nat, (do return foldPieces (← Grammar.pieces n)) =
        (do return .ok (← Grammar.segments n)) ∧
      ∀ name : String, (do return foldPieces (← Grammar.piecesFrom name n)) =
        (do return .ok (← Grammar.segmentsFrom name n)) := by
  refine ⟨fun args item file => ⟨Expansion.ofItemChecked_eq args item file, Outcome.settled _⟩,
    fun text file => ⟨Expansion.ofSourceChecked_eq text file, Outcome.settled _⟩,
    fun item file => ⟨checkMethodChecked_eq item file, Outcome.settled _⟩, fun n => ?_⟩
  obtain ⟨hpieces, hfrom, -⟩ := Grammar.folded_eq n
  exact ⟨hpieces [], fun name => hfrom [] name⟩

end ShadowImpl
