import ShadowImpl.Engine
import ShadowImpl.Projection
import ShadowImpl.Shadow

/-!
# Syntax as records

Trees that come from outside are records: a kind and named fields, of which those with a default may
be left out. Nothing keeps a record from holding a node where a type is expected that is no type. It
is read all the same, and the misplaced nodes are listed: such a tree can be compared, but it cannot
be printed, and it cannot be projected if one of them stands in a root position.
-/

namespace ShadowImpl

mutual

/-- A tree of which only the shape is known. -/
inductive Record where
  | absent
  | flag (value : Bool)
  | text (value : String)
  | number (value : Int)
  | list (items : List Record)
  | node (kind : String) (fields : List Field)

/-- A named part of a node. -/
structure Field where
  name : String
  value : Record

end

deriving instance BEq for Record, Field

namespace Record

/-! ## Fields and defaults -/

/-- The fields of a kind; one that has to be given has no default. -/
def schema : String → List (String × Option Record)
  | "Lifetime" => [("name", none)]
  | "AngleArgs" => [("args", some (list [])), ("turbofish", some (flag false))]
  | "ParenArgs" => [("inputs", some (list [])), ("output", some absent)]
  | "PathSegment" => [("ident", none), ("arguments", some absent)]
  | "Path" => [("segments", none), ("leading_colon", some (flag false))]
  | "AssocBinding" => [("ident", none), ("ty", none)]
  | "AssocConstraint" => [("ident", none), ("bounds", none)]
  | "ConstArg" => [("text", none)]
  | "QSelf" => [("ty", none), ("as_trait", some absent)]
  | "PathType" => [("path", none), ("qself", some absent)]
  | "RefType" => [("lifetime", none), ("mutable", none), ("elem", none)]
  | "PtrType" => [("mutable", none), ("elem", none)]
  | "TupleType" => [("elems", some (list []))]
  | "ParenType" | "SliceType" => [("elem", none)]
  | "ArrayType" => [("elem", none), ("length", none)]
  | "ImplTraitType" | "DynTraitType" => [("bounds", none)]
  | "BareFnArg" => [("name", none), ("ty", none)]
  | "BareFnType" =>
    [("lifetimes", some (list [])), ("unsafe", some (flag false)), ("abi", some absent),
      ("inputs", some (list [])), ("output", some absent)]
  | "TraitBound" =>
    [("path", none), ("maybe", some (flag false)), ("lifetimes", some (list []))]
  | "TypePredicate" =>
    [("bounded_ty", none), ("bounds", some (list [])), ("lifetimes", some (list []))]
  | "LifetimePredicate" | "LifetimeParam" => [("lifetime", none), ("bounds", some (list []))]
  | "TypeParam" => [("ident", none), ("bounds", some (list [])), ("default", some absent)]
  | "ConstParam" => [("ident", none), ("ty", none), ("default", some absent)]
  | "WhereClause" => [("predicates", some (list []))]
  | "Generics" => [("params", some (list [])), ("where_clause", some absent)]
  | "Meta" =>
    [("path", none), ("form", none), ("args", some absent), ("args_span", some absent),
      ("location", some absent)]
  | "Attribute" => [("style", none), ("meta", none), ("text", none), ("location", some absent)]
  | "Method" =>
    [("name", none), ("attrs", none), ("head", none), ("generics", none), ("params", none),
      ("ret", none), ("body", none), ("location", some absent)]
  | "VerbatimItem" => [("kind", none), ("attrs", none), ("text", none), ("location", some absent)]
  | "ImplUnit" =>
    [("attrs", none), ("unsafe", none), ("generics", none), ("trait_ref", none), ("self_ty", none),
      ("self_location", none), ("inner_attrs", none), ("items", none), ("text", none),
      ("location", some absent)]
  | "Diagnostic" =>
    [("message", none), ("location", none), ("code", some absent), ("help", some absent),
      ("note", some absent), ("label", some absent)]
  | "SourceLocation" =>
    [("file", none), ("line", none), ("column", none), ("start", some (number 0)),
      ("end", some (number 0)), ("end_line", some (number 0)), ("end_column", some (number 0))]
  | _ => []

/-- The kind of a node. What is no node has a kind too, by which messages call it. -/
def kind : Record → String
  | absent => "NoneType"
  | flag _ => "bool"
  | text _ => "str"
  | number _ => "int"
  | list _ => "tuple"
  | node k _ => k

/-- A field of a node. One that is left out has its default. -/
def field (r : Record) (name : String) : Record :=
  match r with
  | node k fields =>
    match fields.find? (·.name = name) with
    | some f => f.value
    | none => ((schema k).lookup name).join.getD absent
  | _ => absent

/-- A flag counts as one or zero. -/
def counted : Record → Record
  | flag b => number (if b then 1 else 0)
  | r => r

mutual

/-- The record with every field written out, in the order of its schema, and its flags counted. -/
def complete : Record → Record
  | node k fields =>
    let given := completeFields fields
    node k ((schema k).map fun (name, default) =>
      match given.find? (·.name = name) with
      | some f => f
      | none => ⟨name, (default.getD absent).counted⟩)
  | list items => list (completeList items)
  | r => r.counted

def completeFields : List Field → List Field
  | [] => []
  | ⟨name, value⟩ :: fields => ⟨name, value.complete⟩ :: completeFields fields

def completeList : List Record → List Record
  | [] => []
  | r :: rs => r.complete :: completeList rs

end

/-- Whether two records stand for the same tree. -/
def same (a b : Record) : Bool :=
  a.complete == b.complete

mutual

/-- How deep a record is nested. -/
def depth : Record → Nat
  | node _ fields => depthOfFields fields + 1
  | list items => depthOfList items + 1
  | _ => 1

def depthOfFields : List Field → Nat
  | [] => 0
  | ⟨_, value⟩ :: fields => max value.depth (depthOfFields fields)

def depthOfList : List Record → Nat
  | [] => 0
  | r :: rs => max r.depth (depthOfList rs)

end

/-! ## Simple values -/

/-- A value as it is written into a text. -/
def asText : Record → String
  | absent => "None"
  | flag true => "True"
  | flag false => "False"
  | text s => s
  | number n => Text.decimal n
  | list _ | node _ _ => ""

def asText? : Record → Option String
  | text s => some s
  | _ => none

/-- Whether a value counts as set: nothing, zero and what is empty do not. -/
def asFlag : Record → Bool
  | absent => false
  | flag b => b
  | text s => s ≠ ""
  | number n => n ≠ 0
  | list rs => !rs.isEmpty
  | node _ _ => true

def asList : Record → List Record
  | list rs => rs
  | _ => []

def asLifetime (r : Record) : Lifetime :=
  ⟨(r.field "name").asText⟩

def asLifetime? : Record → Option Lifetime
  | absent => none
  | r => some r.asLifetime

def asLifetimes (r : Record) : List Lifetime :=
  r.asList.map asLifetime

end Record

/-! ## Reading trees -/

/-- A tree that was read from a record. `unprintable` lists the misplaced nodes in the order of
printing, and `unprojectable` those that a projection comes to, in its order. -/
structure Loose (α : Type) where
  value : α
  unprintable : List String := []
  unprojectable : List String := []

namespace Loose

variable {α β γ : Type}

def map (f : α → β) (a : Loose α) : Loose β :=
  ⟨f a.value, a.unprintable, a.unprojectable⟩

/-- Two parts, the first of which is printed and projected first. -/
def both (f : α → β → γ) (a : Loose α) (b : Loose β) : Loose γ :=
  ⟨f a.value b.value, a.unprintable ++ b.unprintable, a.unprojectable ++ b.unprojectable⟩

/-- A part that no projection enters. -/
def sheltered (a : Loose α) : Loose α :=
  { a with unprojectable := [] }

/-- Parts in order. -/
def all : List (Loose α) → Loose (List α)
  | [] => ⟨[], [], []⟩
  | a :: as => both List.cons a (all as)

/-- The printed tree, or the first misplaced node. -/
def print (render : α → String) (a : Loose α) : Except Defect String :=
  match a.unprintable with
  | kind :: _ => .error (.noPrinter kind)
  | [] => .ok (render a.value)

/-- The projected tree in print. A projection fails before anything is printed. -/
def printProjected (project : α → α) (render : α → String) (a : Loose α) :
    Except Defect String :=
  match a.unprojectable with
  | kind :: _ => .error (.noProjection kind)
  | [] => (a.map project).print render

end Loose

namespace Record

open Loose

mutual

/-- A type in a root position. The number bounds the depth. -/
def asTy : Nat → Record → Loose Ty
  | 0, _ => ⟨.never, [], []⟩
  | n + 1, r =>
    match r.kind with
    | "PathType" =>
      match r.field "qself" with
      | absent => (asPath n (r.field "path")).sheltered.map .path
      | q =>
        both (fun (self, asTrait) path => .qualified self asTrait path)
          (both Prod.mk (asTy n (q.field "ty")) (asPath? n (q.field "as_trait")).sheltered)
          (asPath n (r.field "path")).sheltered
    | "RefType" =>
      (asTy n (r.field "elem")).map
        (.ref (r.field "lifetime").asLifetime? (r.field "mutable").asFlag)
    | "PtrType" => (asTy n (r.field "elem")).map (.ptr (r.field "mutable").asFlag)
    | "TupleType" => (asTys n (r.field "elems")).map .tuple
    | "ParenType" => (asTy n (r.field "elem")).map .paren
    | "SliceType" => (asTy n (r.field "elem")).map .slice
    | "ArrayType" => (asTy n (r.field "elem")).map fun t => .array t (r.field "length").asText
    | "NeverType" => ⟨.never, [], []⟩
    | "ImplTraitType" => (asBounds n (r.field "bounds")).map .implTrait
    | "DynTraitType" => (asBounds n (r.field "bounds")).map .dynTrait
    | "BareFnType" =>
      both (.fnPtr (r.field "lifetimes").asLifetimes (r.field "unsafe").asFlag
          (r.field "abi").asText?)
        (all ((r.field "inputs").asList.map fun i =>
          (asTy n (i.field "ty")).map (FnArg.mk (i.field "name").asText?)))
        (asTy? n (r.field "output"))
    | k => ⟨.never, [k], [k]⟩

def asTy? : Nat → Record → Loose (Option Ty)
  | 0, _ => ⟨none, [], []⟩
  | n + 1, r =>
    match r with
    | absent => ⟨none, [], []⟩
    | r => (asTy n r).map some

def asTys : Nat → Record → Loose (List Ty)
  | 0, _ => ⟨[], [], []⟩
  | n + 1, r => all (r.asList.map (asTy n))

/-- A path under a bound, whose arguments are root positions. -/
def asPath : Nat → Record → Loose Path
  | 0, _ => ⟨⟨[], false⟩, [], []⟩
  | n + 1, r =>
    (all ((r.field "segments").asList.map fun s =>
      (asArgs n (s.field "arguments")).map (Segment.mk (s.field "ident").asText))).map
        fun segments => ⟨segments, (r.field "leading_colon").asFlag⟩

def asPath? : Nat → Record → Loose (Option Path)
  | 0, _ => ⟨none, [], []⟩
  | n + 1, r =>
    match r with
    | absent => ⟨none, [], []⟩
    | r => (asPath n r).map some

/-- Path arguments. The output of parenthesised arguments is projected before their inputs. -/
def asArgs : Nat → Record → Loose (Option PathArgs)
  | 0, _ => ⟨none, [], []⟩
  | n + 1, r =>
    match r.kind with
    | "AngleArgs" =>
      (all ((r.field "args").asList.map (asGenericArg n))).map fun args =>
        some (.angle args (r.field "turbofish").asFlag)
    | "ParenArgs" =>
      let inputs := asTys n (r.field "inputs")
      let output := asTy? n (r.field "output")
      { both (fun i o => some (PathArgs.paren i o)) inputs output with
        unprojectable := output.unprojectable ++ inputs.unprojectable }
    | _ => ⟨none, [], []⟩

/-- A generic argument. A misplaced one is passed over by a projection. -/
def asGenericArg : Nat → Record → Loose GenericArg
  | 0, _ => ⟨.const "", [], []⟩
  | n + 1, r =>
    match r.kind with
    | "Lifetime" => ⟨.lifetime r.asLifetime, [], []⟩
    | "AssocBinding" => (asTy n (r.field "ty")).map (.binding (r.field "ident").asText)
    | "AssocConstraint" =>
      (asBounds n (r.field "bounds")).map (.constraint (r.field "ident").asText)
    | "ConstArg" => ⟨.const (r.field "text").asText, [], []⟩
    | k =>
      if ["PathType", "RefType", "PtrType", "TupleType", "ParenType", "SliceType", "ArrayType",
          "NeverType", "ImplTraitType", "DynTraitType", "BareFnType"].contains k then
        (asTy n r).map .ty
      else (asTy n r).sheltered.map .ty

def asBounds : Nat → Record → Loose (List Bound)
  | 0, _ => ⟨[], [], []⟩
  | n + 1, r => all (r.asList.map (asBound n))

def asBound : Nat → Record → Loose Bound
  | 0, _ => ⟨.lifetime ⟨""⟩, [], []⟩
  | n + 1, r =>
    if r.kind = "Lifetime" then ⟨.lifetime r.asLifetime, [], []⟩
    else (asPath n (r.field "path")).map fun path =>
      .trait path (r.field "maybe").asFlag (r.field "lifetimes").asLifetimes

end

/-- The number of rules that a record of this depth can be read with. -/
def fuel (r : Record) : Nat :=
  4 * (r.depth + 1)

/-- How a value is shown in a message. Of a node it is the kind, with nothing in its parentheses,
and a text stands in quotes. -/
def shown : Record → String
  | node k _ => k ++ "()"
  | text s => "'" ++ s ++ "'"
  | r => r.asText

def ty (r : Record) : Loose Ty := asTy r.fuel r

def path (r : Record) : Loose Path := asPath r.fuel r

def bound (r : Record) : Loose Bound := asBound r.fuel r

def genericArg (r : Record) : Loose GenericArg := asGenericArg r.fuel r

def predicate (r : Record) : Except Defect (Loose Predicate) :=
  match r.kind with
  | "TypePredicate" =>
    .ok (both (fun t bs => .type t bs (r.field "lifetimes").asLifetimes)
      (asTy r.fuel (r.field "bounded_ty")) (asBounds r.fuel (r.field "bounds")))
  | "LifetimePredicate" =>
    .ok ⟨.lifetime (r.field "lifetime").asLifetime (r.field "bounds").asLifetimes, [], []⟩
  | _ => .error (.notPredicate r.shown)

def genericParam (r : Record) : Except Defect (Loose GenericParam) :=
  match r.kind with
  | "TypeParam" =>
    .ok (both (.type (r.field "ident").asText)
      (asBounds r.fuel (r.field "bounds")) (asTy? r.fuel (r.field "default")))
  | "LifetimeParam" =>
    .ok ⟨.lifetime (r.field "lifetime").asLifetime (r.field "bounds").asLifetimes, [], []⟩
  | "ConstParam" =>
    .ok (both (.const (r.field "ident").asText) (asTy r.fuel (r.field "ty"))
      (match r.field "default" with
        | absent => ⟨none, [], []⟩
        | d => (asGenericArg r.fuel d).map some))
  | _ => .error (.notParameter r.shown)

/-- Generics, which have to be free of misplaced nodes. -/
def generics (r : Record) : Except Defect Generics := do
  let params ← (r.field "params").asList.mapM fun p => do
    let p ← p.genericParam
    let _ ← p.print GenericParam.print
    return p.value
  let clause ← match r.field "where_clause" with
    | absent => pure none
    | c => do
      let predicates ← (c.field "predicates").asList.mapM fun p => do
        let p ← p.predicate
        let _ ← p.print Predicate.print
        return p.value
      pure (some predicates)
  return ⟨params, clause⟩

end Record

/-! ## What is asked of a loose type -/

/-- The shadow of a type in print. A type that has none is named by its print, so a misplaced node
is found first. -/
def Loose.printShadow (a : Loose Ty) (location : Option Location) :
    Except Defect (Except Fault String) :=
  match a.unprintable with
  | kind :: _ => .error (.noPrinter kind)
  | [] => .ok ((a.value.shadow location).map Ty.print)

/-! ## Writing trees -/

/-- A value that may be left out. -/
def recordOption {α : Type} (record : α → Record) : Option α → Record
  | none => .absent
  | some a => record a

def Lifetime.record (l : Lifetime) : Record :=
  .node "Lifetime" [⟨"name", .text l.name⟩]

def recordLifetimes (lifetimes : List Lifetime) : Record :=
  .list (lifetimes.map Lifetime.record)

mutual

/-- A type as a record. -/
def Ty.record : Ty → Record
  | .path path => .node "PathType" [⟨"path", path.record⟩, ⟨"qself", .absent⟩]
  | .qualified self asTrait path =>
    .node "PathType" [⟨"path", path.record⟩,
      ⟨"qself", .node "QSelf" [⟨"ty", self.record⟩, ⟨"as_trait", recordPath? asTrait⟩]⟩]
  | .ref lifetime mutable elem =>
    .node "RefType" [⟨"lifetime", recordOption Lifetime.record lifetime⟩,
      ⟨"mutable", .flag mutable⟩, ⟨"elem", elem.record⟩]
  | .ptr mutable elem => .node "PtrType" [⟨"mutable", .flag mutable⟩, ⟨"elem", elem.record⟩]
  | .tuple elems => .node "TupleType" [⟨"elems", .list (recordTys elems)⟩]
  | .paren elem => .node "ParenType" [⟨"elem", elem.record⟩]
  | .slice elem => .node "SliceType" [⟨"elem", elem.record⟩]
  | .array elem length => .node "ArrayType" [⟨"elem", elem.record⟩, ⟨"length", .text length⟩]
  | .never => .node "NeverType" []
  | .implTrait bounds => .node "ImplTraitType" [⟨"bounds", .list (recordBounds bounds)⟩]
  | .dynTrait bounds => .node "DynTraitType" [⟨"bounds", .list (recordBounds bounds)⟩]
  | .fnPtr lifetimes isUnsafe abi inputs output =>
    .node "BareFnType" [⟨"lifetimes", recordLifetimes lifetimes⟩, ⟨"unsafe", .flag isUnsafe⟩,
      ⟨"abi", recordOption .text abi⟩, ⟨"inputs", .list (recordFnArgs inputs)⟩,
      ⟨"output", recordTy? output⟩]

def recordTy? : Option Ty → Record
  | none => .absent
  | some ty => ty.record

def recordTys : List Ty → List Record
  | [] => []
  | ty :: tys => ty.record :: recordTys tys

def FnArg.record : FnArg → Record
  | ⟨name, ty⟩ => .node "BareFnArg" [⟨"name", recordOption .text name⟩, ⟨"ty", ty.record⟩]

def recordFnArgs : List FnArg → List Record
  | [] => []
  | arg :: args => arg.record :: recordFnArgs args

def Path.record : Path → Record
  | ⟨segments, rooted⟩ =>
    .node "Path" [⟨"segments", .list (recordSegments segments)⟩, ⟨"leading_colon", .flag rooted⟩]

def recordPath? : Option Path → Record
  | none => .absent
  | some path => path.record

def Segment.record : Segment → Record
  | ⟨ident, args⟩ => .node "PathSegment" [⟨"ident", .text ident⟩, ⟨"arguments", recordArgs? args⟩]

def recordSegments : List Segment → List Record
  | [] => []
  | segment :: segments => segment.record :: recordSegments segments

def PathArgs.record : PathArgs → Record
  | .angle args turbofish =>
    .node "AngleArgs" [⟨"args", .list (recordGenericArgs args)⟩, ⟨"turbofish", .flag turbofish⟩]
  | .paren inputs output =>
    .node "ParenArgs" [⟨"inputs", .list (recordTys inputs)⟩, ⟨"output", recordTy? output⟩]

def recordArgs? : Option PathArgs → Record
  | none => .absent
  | some args => args.record

def GenericArg.record : GenericArg → Record
  | .ty ty => ty.record
  | .lifetime lifetime => lifetime.record
  | .binding ident ty => .node "AssocBinding" [⟨"ident", .text ident⟩, ⟨"ty", ty.record⟩]
  | .constraint ident bounds =>
    .node "AssocConstraint" [⟨"ident", .text ident⟩, ⟨"bounds", .list (recordBounds bounds)⟩]
  | .const text => .node "ConstArg" [⟨"text", .text text⟩]

def recordGenericArgs : List GenericArg → List Record
  | [] => []
  | arg :: args => arg.record :: recordGenericArgs args

def Bound.record : Bound → Record
  | .trait path maybe lifetimes =>
    .node "TraitBound" [⟨"path", path.record⟩, ⟨"maybe", .flag maybe⟩,
      ⟨"lifetimes", recordLifetimes lifetimes⟩]
  | .lifetime lifetime => lifetime.record

def recordBounds : List Bound → List Record
  | [] => []
  | bound :: bounds => bound.record :: recordBounds bounds

end

/-- A predicate as a record. -/
def Predicate.record : Predicate → Record
  | .type subject bounds lifetimes =>
    .node "TypePredicate" [⟨"bounded_ty", subject.record⟩, ⟨"bounds", .list (recordBounds bounds)⟩,
      ⟨"lifetimes", recordLifetimes lifetimes⟩]
  | .lifetime l bounds =>
    .node "LifetimePredicate" [⟨"lifetime", l.record⟩, ⟨"bounds", recordLifetimes bounds⟩]

/-- A generic parameter as a record. -/
def GenericParam.record : GenericParam → Record
  | .type ident bounds default =>
    .node "TypeParam" [⟨"ident", .text ident⟩, ⟨"bounds", .list (recordBounds bounds)⟩,
      ⟨"default", recordTy? default⟩]
  | .lifetime l bounds =>
    .node "LifetimeParam" [⟨"lifetime", l.record⟩, ⟨"bounds", recordLifetimes bounds⟩]
  | .const ident ty default =>
    .node "ConstParam" [⟨"ident", .text ident⟩, ⟨"ty", ty.record⟩,
      ⟨"default", recordOption GenericArg.record default⟩]

/-! ## Checks of an engine

A tree is taken from its record, in which nothing keeps a node from standing where it
does not belong.
-/

/-- The type in print, from its record. -/
def Ty.printChecked (t : Ty) : Except Abort String :=
  (t.record.ty.print Ty.print).mapError .defect

/-- The parameter in print, from its record. -/
def GenericParam.printChecked (p : GenericParam) : Except Abort String :=
  (p.record.genericParam >>= Loose.print GenericParam.print).mapError .defect

/-- The predicate in print, from its record. -/
def Predicate.printChecked (p : Predicate) : Except Abort String :=
  (p.record.predicate >>= Loose.print Predicate.print).mapError .defect

/-- The predicate projected, from its record. -/
def Predicate.projectChecked (projected : List String) (p : Predicate) : Except Abort Predicate :=
  match p.record.predicate with
  | .error d => .error (.defect d)
  | .ok loose =>
    match loose.unprojectable with
    | kind :: _ => .error (.defect (.noProjection kind))
    | [] => .ok (loose.value.project projected)

/-- All that generics consist of in print. -/
def Generics.printChecked (g : Generics) : Except Abort (List String × List String) := do
  return (← g.params.mapM GenericParam.printChecked, ← g.predicates.mapM Predicate.printChecked)

end ShadowImpl
