import ShadowImpl.Text.Basic

/-!
# Defects

Failures that no input can cause: they say that the library is used wrongly, by passes that cannot
be ordered or by nodes that stand where they do not belong.
-/

namespace ShadowImpl

/-- A wrong use of the library. -/
inductive Defect where
  | unregistered (pass : String) (missing : List String)
  | circular
  | missingAnalysis (pass : String)
  | noPrinter (kind : String)
  | noProjection (kind : String)
  | notPredicate (node : String)
  | notParameter (node : String)
deriving DecidableEq, Repr

/-- The code of a defect for which no other is given. -/
def Defect.code : String := "E9999"

/-- The code in brackets and the message. -/
def Defect.summary (code message : String) : String :=
  "[" ++ code ++ "] " ++ message

/-- What a defect is reported as. -/
def Defect.message : Defect → String
  | unregistered pass missing =>
    pass ++ " requires unregistered pass(es): " ++ Text.join ", " missing
  | circular => "Circular dependency detected in passes"
  | missingAnalysis pass => "Analysis " ++ pass ++ " not available"
  | noPrinter kind => "no printer for type node " ++ kind
  | noProjection kind => "no rewrite rule for type node " ++ kind
  | notPredicate node => "not a where predicate: " ++ node
  | notParameter node => "not a generic parameter: " ++ node

end ShadowImpl
