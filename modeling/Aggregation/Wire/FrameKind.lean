/-! Containers of the binary format: whatever starts with the length of the bytes that it takes. -/

namespace Aggregation.Wire

/-- The kinds of container. Code with a scope is a container around its scope document. -/
inductive FrameKind where
  | document
  | array
  | scopeDocument
  | scopedCode
  deriving DecidableEq, Repr, Inhabited

end Aggregation.Wire
