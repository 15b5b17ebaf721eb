/-
  PatchPresence.Patch.Reference — how a method looks before and behind a patch.
-/
import PatchPresence.Config
import PatchPresence.Diff.File
import PatchPresence.Feature.FromSource

namespace PatchPresence

/-- Features of a method on both sides of a patch. A side is missing when the patch adds or removes the
    method. -/
structure ReferenceMethod where
  signature : MethodSignature
  pre : Option FeatureSet
  post : Option FeatureSet
deriving DecidableEq, Repr

namespace ReferenceMethod

/-- Features of the methods of a tree by signature, in the order of the methods. -/
def ofTree (tree : SyntaxTree) (library : LibraryConstants) (families : Families) :
    List (MethodSignature × FeatureSet) :=
  let source : FoldedTree := ⟨tree, tree.propagate library⟩
  tree.methods.filterMap fun method => do
    return (← tree.methodSignature? method, source.features method families)

/-- Features of the methods of a tree, if there is one and its links are right. -/
def ofSide (tree : Option SyntaxTree) (library : LibraryConstants) (families : Families) :
    Outcome (List (MethodSignature × FeatureSet)) :=
  match tree with
  | none => .ok []
  | some tree => do
    tree.validate
    return ofTree tree library families

/-- Adds the features of a method before the patch. -/
def withPre (table : Table MethodSignature ReferenceMethod)
    (entry : MethodSignature × FeatureSet) : Table MethodSignature ReferenceMethod :=
  table.upsert entry.1 fun old => { old.getD ⟨entry.1, none, none⟩ with pre := some entry.2 }

/-- Adds the features of a method behind the patch. -/
def withPost (table : Table MethodSignature ReferenceMethod)
    (entry : MethodSignature × FeatureSet) : Table MethodSignature ReferenceMethod :=
  table.upsert entry.1 fun old => { old.getD ⟨entry.1, none, none⟩ with post := some entry.2 }

/-- References for every method of either tree, by ascending signature. -/
def ofTrees (pre post : Option SyntaxTree) (library : LibraryConstants) (families : Families) :
    Outcome (List ReferenceMethod) := do
  let before ← ofSide pre library families
  let behind ← ofSide post library families
  return (behind.foldl withPost (before.foldl withPre .empty)).values

end ReferenceMethod

end PatchPresence
