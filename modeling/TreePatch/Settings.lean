/-! The kinds a document model chooses for itself. -/

namespace TreePatch

structure Settings where
  /-- Kind of the childless branch that fills an empty document. -/
  placeholderKind : String := "paragraph"
  /-- Kind reported for content that is not one whole branch. -/
  leafKind : String := "text"
  deriving DecidableEq, Repr

end TreePatch
