/-!
# Kinds of scopes

The constructs that open a scope while code is generated.
-/

namespace StackCode

/-- What construct a scope belongs to. -/
inductive ScopeKind where
  | method
  | block
  | loop
  | labelled
  | switch
  | tryBlock
  | monitor
deriving DecidableEq, Repr, Inhabited

def ScopeKind.name : ScopeKind → String
  | method => "method"
  | block => "block"
  | loop => "loop"
  | labelled => "labelled"
  | switch => "switch"
  | tryBlock => "try"
  | monitor => "synchronized"

end StackCode
