/-
  PatchPresence.Signature — identity of a method across bytecode and source.
-/
namespace PatchPresence

/-- Declared identity of a method. -/
structure MethodSignature where
  /-- Internal name of the class that declares the method. -/
  owner : String
  name : String
  descriptor : String
  isStatic : Bool
deriving DecidableEq, Repr

namespace MethodSignature

/-- Signatures are ordered by owner, name, descriptor and staticness. -/
def order (a b : MethodSignature) : Ordering :=
  (compare a.owner b.owner).then <|
    (compare a.name b.name).then <|
      (compare a.descriptor b.descriptor).then (compare a.isStatic b.isStatic)

instance : Ord MethodSignature := ⟨order⟩

/-- Text that names the method: owner, a dot, name and descriptor. -/
def key (signature : MethodSignature) : String :=
  signature.owner ++ "." ++ signature.name ++ signature.descriptor

end MethodSignature

/-- Internal form of a qualified name: slashes for dots. -/
def internalName (qualified : String) : String :=
  qualified.map fun c => if c = '.' then '/' else c

end PatchPresence
