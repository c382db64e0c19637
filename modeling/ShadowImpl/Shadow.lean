import ShadowImpl.Fault
import ShadowImpl.Syntax.Printer

/-!
# Shadow types

The shadow of a named type has `Shadow` in front of the last name of its path. A type without a name
of its own has no shadow.
-/

namespace ShadowImpl

/-- Puts `Shadow` in front of the last name; `none` without any name. -/
def shadowSegments : List Segment → Option (List Segment)
  | [] => none
  | [⟨ident, args⟩] => some [⟨"Shadow" ++ ident, args⟩]
  | segment :: segments => (shadowSegments segments).map (segment :: ·)

/-- The shadow of a type, if it has one. -/
def Ty.shadow? : Ty → Option Ty
  | .path ⟨segments, rooted⟩ => (shadowSegments segments).map fun s => .path ⟨s, rooted⟩
  | _ => none

/-- The shadow of the type at `location`. -/
def Ty.shadow (ty : Ty) (location : Option Location) : Except Fault Ty :=
  match ty.shadow? with
  | some shadow => .ok shadow
  | none => .error ⟨.unsupportedSelfType ty.print, location⟩

end ShadowImpl
