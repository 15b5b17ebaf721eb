/-
  PatchPresence.Proofs.Patch.Sides — the sides of a patch that a reference has features for.

  References are made file by file. Within a file a reference has a side when the tree of that side declares the
  method; of several files with a method only the first one, in the order of the paths, is used. So a reference
  says whether the patch adds or removes its method when that file has the method on every side where any file
  has it, and not when the method moves to another file.

  Main results:
    * `ReferenceMethod.has_fileTable` — a reference of a file has the sides whose trees declare its method.
    * `PatchReport.get?_known` — a reference is known beforehand or is that of the first file.
    * `PatchReport.sides_of_judged` — the sides of a reference that is judged.
    * `PatchReport.side_lost_movedSources` — a method that moves to another file loses a side.
-/
import PatchPresence.Proofs.Patch.Dependence
import PatchPresence.Proofs.Source.Navigation

namespace PatchPresence

/-! ## §1. References by signature. -/

namespace ReferenceMethod

/-- Features of the method on a side. -/
def side? (reference : ReferenceMethod) : Side → Option FeatureSet
  | .old => reference.pre
  | .new => reference.post

/-- The reference with features on a side. -/
def put (reference : ReferenceMethod) (set : FeatureSet) : Side → ReferenceMethod
  | .old => { reference with pre := some set }
  | .new => { reference with post := some set }

theorem signature_put (reference : ReferenceMethod) (set : FeatureSet) (side : Side) :
    (reference.put set side).signature = reference.signature := by
  cases side with
  | old => rfl
  | new => rfl

theorem isSome_side?_put (reference : ReferenceMethod) (set : FeatureSet) (side other : Side) :
    ((reference.put set side).side? other).isSome = true ↔ other = side ∨ (reference.side? other).isSome = true := by
  cases side <;> cases other <;> simp [put, side?]

/-- Adds the features of a method on a side. -/
def withSide (side : Side) (table : Table MethodSignature ReferenceMethod)
    (entry : MethodSignature × FeatureSet) : Table MethodSignature ReferenceMethod :=
  table.upsert entry.1 fun old => (old.getD ⟨entry.1, none, none⟩).put entry.2 side

theorem withPre_eq : withPre = withSide .old := rfl

theorem withPost_eq : withPost = withSide .new := rfl

/-- References are filed by signature, and each has a side. -/
structure Filed (table : Table MethodSignature ReferenceMethod) : Prop where
  sorted : table.Sorted
  signature_eq : ∀ signature reference, table.get? signature = some reference → reference.signature = signature
  exists_side : ∀ signature reference, table.get? signature = some reference →
    ∃ side, (reference.side? side).isSome = true

/-- A table has features of a method on a side. -/
def Has (table : Table MethodSignature ReferenceMethod) (side : Side) (signature : MethodSignature) : Prop :=
  ∃ reference, table.get? signature = some reference ∧ (reference.side? side).isSome = true

variable {table : Table MethodSignature ReferenceMethod}

theorem filed_empty : Filed .empty where
  sorted := List.Pairwise.nil
  signature_eq _ _ h := by cases h
  exists_side _ _ h := by cases h

theorem not_has_empty (side : Side) (signature : MethodSignature) : ¬ Has .empty side signature := by
  rintro ⟨reference, hget, -⟩
  cases hget

theorem Filed.get?_withSide (h : Filed table) (side : Side) (entry : MethodSignature × FeatureSet)
    (signature : MethodSignature) :
    (withSide side table entry).get? signature =
      if signature = entry.1 then
        some (((table.get? entry.1).getD ⟨entry.1, none, none⟩).put entry.2 side)
      else table.get? signature :=
  h.sorted.get?_upsert entry.1 signature _

theorem Filed.withSide (h : Filed table) (side : Side) (entry : MethodSignature × FeatureSet) :
    Filed (withSide side table entry) where
  sorted := h.sorted.upsert entry.1 _
  signature_eq signature reference hget := by
    rw [h.get?_withSide] at hget
    split at hget
    · next heq =>
      cases hget
      rw [signature_put, heq]
      cases hold : table.get? entry.1 with
      | none => rfl
      | some old => exact h.signature_eq entry.1 old hold
    · exact h.signature_eq signature reference hget
  exists_side signature reference hget := by
    rw [h.get?_withSide] at hget
    split at hget
    · cases hget
      exact ⟨side, (isSome_side?_put _ _ _ _).2 (.inl rfl)⟩
    · exact h.exists_side signature reference hget

/-- One step adds one side of one method. -/
theorem Filed.has_withSide (h : Filed table) (side other : Side) (entry : MethodSignature × FeatureSet)
    (signature : MethodSignature) :
    Has (ReferenceMethod.withSide side table entry) other signature ↔
      Has table other signature ∨ other = side ∧ signature = entry.1 := by
  unfold Has
  rw [h.get?_withSide]
  split
  · next heq =>
    subst heq
    simp only [Option.some.injEq, exists_eq_left', isSome_side?_put]
    -- a new reference has this side alone, one that is there keeps the other
    cases hold : table.get? entry.1 with
    | none => cases other <;> simp [side?]
    | some old => simp [or_comm]
  · next hne => simp [hne]

theorem Filed.foldl_withSide (h : Filed table) (side : Side) (entries : List (MethodSignature × FeatureSet)) :
    Filed (entries.foldl (ReferenceMethod.withSide side) table) := by
  induction entries generalizing table with
  | nil => exact h
  | cons entry entries ih => exact ih (h.withSide side entry)

/-- A run adds one side of the methods that it goes through. -/
theorem Filed.has_foldl_withSide (h : Filed table) (side other : Side)
    (entries : List (MethodSignature × FeatureSet)) (signature : MethodSignature) :
    Has (entries.foldl (ReferenceMethod.withSide side) table) other signature ↔
      Has table other signature ∨ other = side ∧ signature ∈ entries.map Prod.fst := by
  induction entries generalizing table with
  | nil => simp
  | cons entry entries ih =>
    rw [List.foldl_cons, ih (h.withSide side entry), h.has_withSide, List.map_cons, List.mem_cons, or_assoc,
      ← and_or_left]

/-- The list of the references is looked through as the table is. -/
theorem Filed.find?_values (h : Filed table) (signature : MethodSignature) :
    table.values.find? (fun reference => decide (reference.signature = signature)) = table.get? signature := by
  have hfiled : ∀ entry ∈ table.entries, entry.2.signature = entry.1 := fun entry hentry =>
    h.signature_eq entry.1 entry.2 (h.sorted.get?_of_mem hentry)
  obtain ⟨entries⟩ := table
  show (entries.map Prod.snd).find? _ = Table.find? signature entries
  replace hfiled : ∀ entry ∈ entries, entry.2.signature = entry.1 := hfiled
  clear h
  induction entries with
  | nil => rfl
  | cons entry rest ih =>
    obtain ⟨hentry, hrest⟩ := List.forall_mem_cons.1 hfiled
    rw [List.map_cons, List.find?_cons, Table.find?_cons, hentry, ih hrest]
    by_cases heq : signature = entry.1
    · simp [heq]
    · simp [heq, Ne.symm heq]

/-! ## §2. The references of a file. -/

variable (library : LibraryConstants) (families : Families) (trees : Side → Option SyntaxTree)

theorem filed_fileTable : Filed (fileTable library families trees) :=
  (filed_empty.foldl_withSide .old _).foldl_withSide .new _

theorem has_fileTable (side : Side) (signature : MethodSignature) :
    Has (fileTable library families trees) side signature ↔
      signature ∈ (sideFeatures library families (trees side)).map Prod.fst := by
  unfold fileTable
  rw [withPre_eq, withPost_eq, (filed_empty.foldl_withSide .old _).has_foldl_withSide,
    filed_empty.has_foldl_withSide]
  cases side with
  | old => simp [not_has_empty]
  | new => simp [not_has_empty]

end ReferenceMethod

/-- A method of a tree with right links is one of those that are gone through. -/
theorem SyntaxTree.mem_methods_of_signature {tree : SyntaxTree} (h : tree.validate = .ok ()) {method : Nat}
    {signature : MethodSignature} (hsignature : tree.methodSignature? method = some signature) :
    method ∈ tree.methods := by
  obtain ⟨kind, hkind, hrest⟩ := Option.bind_eq_some_iff.1 hsignature
  have hmethod : tree.has NodeKind.isMethod method = true := by
    cases kind with
    | method => exact has_of_kind hkind rfl
    | _ => cases hrest
  -- no node is missed on the way down from the roots
  have hcover := (validate_eq_ok_iff.1 h).roots_cover
  exact List.mem_filter.2 ⟨hcover.mem_iff.2 (List.mem_range.2 (lt_size_of_has hmethod)), hmethod⟩

theorem ReferenceMethod.mem_ofTree {tree : SyntaxTree} (h : tree.validate = .ok ()) (library : LibraryConstants)
    (families : Families) (signature : MethodSignature) :
    signature ∈ (ofTree tree library families).map Prod.fst ↔
      ∃ method, tree.methodSignature? method = some signature := by
  have hentries : (ofTree tree library families).map Prod.fst = tree.methods.filterMap tree.methodSignature? := by
    unfold ofTree
    rw [List.map_filterMap]
    congr 1
    funext method
    cases tree.methodSignature? method <;> rfl
  rw [hentries, List.mem_filterMap]
  constructor
  · rintro ⟨method, -, hsignature⟩
    exact ⟨method, hsignature⟩
  · rintro ⟨method, hsignature⟩
    exact ⟨method, SyntaxTree.mem_methods_of_signature h hsignature, hsignature⟩

/-! ## §3. The first file with a method. -/

namespace SourcePair

/-- A file declares a method on a side. -/
def Declares (sources : SourcePair) (side : Side) (path : String) (signature : MethodSignature) : Prop :=
  ∃ tree, sources.tree? side path = some tree ∧ ∃ method, tree.methodSignature? method = some signature

/-- The first of the files that declare a method on any side. -/
structure IsFirst (sources : SourcePair) (signature : MethodSignature) (path : String) : Prop where
  declares : ∃ side, sources.Declares side path signature
  least : ∀ side other, sources.Declares side other signature → (compare path other).isLE = true

variable {sources : SourcePair}

theorem Declares.mem_paths {side : Side} {path : String} {signature : MethodSignature}
    (h : sources.Declares side path signature) : path ∈ sources.paths := by
  obtain ⟨tree, htree, -⟩ := h
  rw [paths, Ascending.mem_ofList, List.mem_append]
  cases side with
  | old => exact .inl (Table.mem_keys_of_get? htree)
  | new => exact .inr (Table.mem_keys_of_get? htree)

theorem IsFirst.eq {signature : MethodSignature} {path other : String} (h : sources.IsFirst signature path)
    (hother : sources.IsFirst signature other) : path = other := by
  obtain ⟨side, hdeclares⟩ := h.declares
  obtain ⟨side', hdeclares'⟩ := hother.declares
  exact Std.LawfulEqCmp.eq_of_compare
    (Std.OrientedCmp.isLE_antisymm (h.least side' other hdeclares') (hother.least side path hdeclares))

/-- The reference of a file has the sides on which the file declares the method. -/
theorem has_fileTable_iff_declares (hvalid : ∀ side path tree, sources.tree? side path = some tree →
      tree.validate = .ok ()) (library : LibraryConstants) (families : Families) (side : Side) (path : String)
    (signature : MethodSignature) :
    ReferenceMethod.Has (ReferenceMethod.fileTable library families (sources.tree? · path)) side signature ↔
      sources.Declares side path signature := by
  rw [ReferenceMethod.has_fileTable]
  unfold Declares ReferenceMethod.sideFeatures
  cases htree : sources.tree? side path with
  | none => simp
  | some tree =>
    have hmem := ReferenceMethod.mem_ofTree (hvalid side path tree htree) library families signature
    simpa using hmem

/-- The first of the paths in order at which a test succeeds. -/
theorem isFirst_of_paths {signature : MethodSignature} {front back : List String} {path : String}
    (hpaths : sources.paths = front ++ path :: back) (hdeclares : ∃ side, sources.Declares side path signature)
    (hfront : ∀ other ∈ front, ∀ side, ¬ sources.Declares side other signature) :
    sources.IsFirst signature path where
  declares := hdeclares
  least side other hother := by
    have hstrict : Ascending.Strict (front ++ path :: back) := hpaths ▸ Ascending.strict_ofList _
    have hmem : other ∈ front ++ path :: back := hpaths ▸ hother.mem_paths
    rcases List.mem_append.1 hmem with hmem | hmem
    · exact absurd hother (hfront other hmem side)
    · rcases List.mem_cons.1 hmem with rfl | hmem
      · rw [Table.compare_self]
        rfl
      · have hlt : compare path other = .lt :=
          (List.pairwise_cons.1 (List.pairwise_append.1 hstrict).2.1).1 other hmem
        rw [hlt]
        rfl

end SourcePair

namespace PatchReport

/-- Of several references with a signature the first stays, behind one that is there already. -/
theorem get?_foldl_insertNew {table : Table MethodSignature ReferenceMethod} (h : table.Sorted)
    (references : List ReferenceMethod) (signature : MethodSignature) :
    (references.foldl (fun table reference => table.insertNew reference.signature reference) table).get? signature =
      (table.get? signature).or (references.find? fun reference => decide (reference.signature = signature)) := by
  induction references generalizing table with
  | nil => simp
  | cons reference references ih =>
    have hsorted : (table.insertNew reference.signature reference).Sorted := h.upsert _ _
    rw [List.foldl_cons, ih hsorted, Table.insertNew, h.get?_upsert, List.find?_cons]
    by_cases heq : signature = reference.signature
    · -- what the table has already goes before this reference, and this one before those that follow
      subst heq
      cases table.get? reference.signature <;> simp
    · simp [heq, Ne.symm heq]

/-- A reference is one that is known beforehand, or that of the first file that has one. -/
theorem get?_known (config : Config) (vulnerability : Vulnerability) (signature : MethodSignature) :
    (known config vulnerability).get? signature =
      ((Table.ofList (vulnerability.methods.map fun method => (method.signature, method))).get? signature).or
        ((vulnerability.usable.paths.filter config.acceptsFile).findSome? fun path =>
          (ReferenceMethod.fileTable config.library config.families
            (vulnerability.usable.tree? · path)).get? signature) := by
  unfold known references
  rw [get?_foldl_insertNew (Table.sorted_ofList _), derived_eq, List.flatMap_map, List.find?_flatMap]
  simp only [(ReferenceMethod.filed_fileTable _ _ _).find?_values]

variable {config : Config} {vulnerability : Vulnerability}

/-- Without references that are known beforehand, a reference is that of the first file with its method. -/
theorem exists_isFirst_of_known (hmethods : vulnerability.methods = [])
    (haccepts : ∀ path ∈ vulnerability.usable.paths, config.acceptsFile path = true)
    {signature : MethodSignature} {reference : ReferenceMethod}
    (h : (known config vulnerability).get? signature = some reference) :
    reference.signature = signature ∧ ∃ path, vulnerability.usable.IsFirst signature path
      ∧ ∀ side, (reference.side? side).isSome = true ↔ vulnerability.usable.Declares side path signature := by
  have hdeclares := vulnerability.usable.has_fileTable_iff_declares (fun _ _ _ => validate_of_usable)
    config.library config.families
  rw [get?_known, hmethods, List.filter_eq_self.2 haccepts] at h
  obtain ⟨front, path, back, hpaths, hget, hfront⟩ := List.findSome?_eq_some_iff.1 h
  have hfiled := ReferenceMethod.filed_fileTable config.library config.families (vulnerability.usable.tree? · path)
  have hsides : ∀ side, (reference.side? side).isSome = true ↔
      vulnerability.usable.Declares side path signature := by
    intro side
    rw [← hdeclares side path signature, ReferenceMethod.Has, hget]
    simp
  refine ⟨hfiled.signature_eq signature reference hget, path, ?_, hsides⟩
  apply SourcePair.isFirst_of_paths hpaths
  · obtain ⟨side, hside⟩ := hfiled.exists_side signature reference hget
    exact ⟨side, (hsides side).1 hside⟩
  · -- a file in front that declared the method would have a reference for it
    intro other hother side hdeclared
    obtain ⟨held, hheld, -⟩ := (hdeclares side other signature).2 hdeclared
    rw [hfront other hother] at hheld
    cases hheld

/-- A method that a file declares has a reference. -/
theorem exists_known_of_declares
    (haccepts : ∀ path ∈ vulnerability.usable.paths, config.acceptsFile path = true)
    {side : Side} {path : String} {signature : MethodSignature}
    (h : vulnerability.usable.Declares side path signature) :
    ∃ reference, (known config vulnerability).get? signature = some reference := by
  obtain ⟨held, hheld, -⟩ := (vulnerability.usable.has_fileTable_iff_declares (fun _ _ _ => validate_of_usable)
    config.library config.families side path signature).2 h
  rw [← Option.isSome_iff_exists, get?_known, List.filter_eq_self.2 haccepts, Option.isSome_or, Bool.or_eq_true,
    List.findSome?_isSome_iff]
  exact .inr ⟨path, h.mem_paths, by rw [hheld]; rfl⟩

theorem usable_eq_of_valid {sources : SourcePair} (hsources : vulnerability.sources.getD {} = sources)
    (hvalid : ∀ tree ∈ sources.pre.values ++ sources.post.values, tree.validate = .ok ()) :
    vulnerability.usable = sources := by
  have hpassing : ∀ trees : Table String SyntaxTree, (∀ tree ∈ trees.values, tree.validate = .ok ()) →
      SourcePair.passing trees = trees := by
    rintro ⟨entries⟩ htrees
    unfold SourcePair.passing
    rw [List.filter_eq_self.2]
    intro entry hentry
    exact decide_eq_true (htrees entry.2 (List.mem_map_of_mem hentry))
  obtain ⟨hpre, hpost⟩ := List.forall_mem_append.1 hvalid
  rw [Vulnerability.usable, SourcePair.valid_eq_withoutBroken, hsources, SourcePair.withoutBroken,
    hpassing _ hpre, hpassing _ hpost]

theorem known_of_mem_judged {reference : ReferenceMethod} (h : reference ∈ judged config vulnerability) :
    ∃ signature, (known config vulnerability).get? signature = some reference := by
  obtain ⟨signature, -, hget⟩ := List.mem_filterMap.1 h
  exact ⟨signature, hget⟩

/-- A reference that is judged has features on the sides on which the first file with its method declares it.
    It tells of every side whether any file declares the method there exactly when the first file declares it
    on all of these. -/
theorem sides_of_judged (config : Config) (vulnerability : Vulnerability) (sources : SourcePair)
    (hsources : vulnerability.sources.getD {} = sources) (hmethods : vulnerability.methods = [])
    (hvalid : ∀ tree ∈ sources.pre.values ++ sources.post.values, tree.validate = .ok ())
    (haccepts : ∀ path ∈ sources.paths, config.acceptsFile path = true)
    (reference : ReferenceMethod) (hjudged : reference ∈ judged config vulnerability) :
    ∃ path, sources.IsFirst reference.signature path
      ∧ (∀ side, (reference.side? side).isSome = true ↔ sources.Declares side path reference.signature)
      ∧ ((∀ side, (reference.side? side).isSome = true ↔
            ∃ other, sources.Declares side other reference.signature) ↔
          ∀ side other, sources.Declares side other reference.signature →
            sources.Declares side path reference.signature) := by
  have husable := usable_eq_of_valid hsources hvalid
  obtain ⟨signature, hget⟩ := known_of_mem_judged hjudged
  obtain ⟨rfl, path, hfirst, hsides⟩ := exists_isFirst_of_known hmethods (husable ▸ haccepts) hget
  rw [husable] at hfirst hsides
  refine ⟨path, hfirst, hsides, ?_⟩
  constructor
  · intro hall side other hother
    exact (hsides side).1 ((hall side).2 ⟨other, hother⟩)
  · intro hpath side
    rw [hsides side]
    constructor
    · intro hdeclares
      exact ⟨path, hdeclares⟩
    · rintro ⟨other, hother⟩
      exact hpath side other hother

/-! ## §4. Files that are copied and files that are moved. -/

/-- A source file with one method. -/
def runTree : SyntaxTree where
  path := "Run.java"
  lineCount := 9
  nodes := #[⟨.classDecl "a.Run", ⟨1, 9⟩, [1], none⟩, ⟨.method "run" "()V" true, ⟨2, 8⟩, [], some 0⟩]
  roots := [0]

/-- The signature of its method. -/
def runSignature : MethodSignature := ⟨"a/Run", "run", "()V", true⟩

theorem validate_runTree : runTree.validate = .ok () := eq_ok_of_toOption (by decide +kernel)

theorem methodSignature?_runTree : runTree.methodSignature? 1 = some runSignature := by
  have hforest : runTree.IsForest := SyntaxTree.validate_eq_ok_iff.1 validate_runTree
  have hchain : runTree.ParentChain 1 [1, 0] := .up (by decide) rfl (.top (by decide) rfl)
  have hancestors : runTree.ancestors 1 = [1, 0] := hchain.explore_eq hforest [] fun _ _ => List.not_mem_nil
  have hclass : runTree.enclosingClass? 1 = some 0 := by
    rw [SyntaxTree.enclosingClass?, SyntaxTree.ancestor?, hancestors]
    rfl
  have hname : runTree.className? 1 = some "a.Run" := by
    rw [SyntaxTree.className?, hclass]
    rfl
  rw [SyntaxTree.methodSignature?, hname]
  decide +kernel

theorem validate_of_eq_runTree {trees : List SyntaxTree} (h : ∀ tree ∈ trees, tree = runTree) :
    ∀ tree ∈ trees, tree.validate = .ok () := by
  intro tree htree
  rw [h tree htree, validate_runTree]

theorem declares_runTree {sources : SourcePair} {side : Side} {path : String}
    (h : sources.tree? side path = some runTree) : sources.Declares side path runSignature :=
  ⟨runTree, h, 1, methodSignature?_runTree⟩

/-- A patch that consists of its sources. -/
def ofSources (sources : SourcePair) : Vulnerability where
  advisoryId := "X-1"
  artifact := ⟨"g", "a", "1"⟩
  diff := ""
  methods := []
  sources := some sources

/-- Without a diff every method is judged, by the reference of the first file with it. -/
theorem exists_judged_ofSources {config : Config} {sources : SourcePair}
    (hvalid : ∀ tree ∈ sources.pre.values ++ sources.post.values, tree.validate = .ok ())
    (haccepts : ∀ path ∈ sources.paths, config.acceptsFile path = true) {signature : MethodSignature}
    {path : String} (hfirst : sources.IsFirst signature path) :
    ∃ reference ∈ judged config (ofSources sources), reference.signature = signature
      ∧ ∀ side, (reference.side? side).isSome = true ↔ sources.Declares side path signature := by
  have husable : (ofSources sources).usable = sources := usable_eq_of_valid rfl hvalid
  have haffected : affected config (ofSources sources) = (known config (ofSources sources)).keys := rfl
  rw [← husable] at haccepts hfirst
  obtain ⟨side, hdeclares⟩ := hfirst.declares
  obtain ⟨reference, hget⟩ := exists_known_of_declares haccepts hdeclares
  obtain ⟨hsignature, other, hother, hsides⟩ := exists_isFirst_of_known rfl haccepts hget
  have hpath : other = path := hother.eq hfirst
  subst hpath
  rw [husable] at hsides
  refine ⟨reference, ?_, hsignature, hsides⟩
  rw [judged, haffected]
  exact List.mem_filterMap.2 ⟨signature, Table.mem_keys_of_get? hget, hget⟩

/-- A file that is copied. -/
def copiedSources : SourcePair :=
  ⟨.ofList [("A.java", runTree)], .ofList [("A.java", runTree), ("B.java", runTree)]⟩

/-- The method of a file that is copied has a reference with both sides. -/
theorem sides_of_judged_copiedSources :
    ∃ reference ∈ judged {} (ofSources copiedSources), reference.signature = runSignature
      ∧ ∀ side, (reference.side? side).isSome = true ↔
        ∃ other, copiedSources.Declares side other reference.signature := by
  have hvalid : ∀ tree ∈ copiedSources.pre.values ++ copiedSources.post.values, tree.validate = .ok () :=
    validate_of_eq_runTree (by decide +kernel)
  have haccepts : ∀ path ∈ copiedSources.paths, ({} : Config).acceptsFile path = true := by decide +kernel
  have hdeclares : ∀ side, copiedSources.Declares side "A.java" runSignature := by
    intro side
    apply declares_runTree
    cases side <;> decide +kernel
  have hpaths : copiedSources.paths = [] ++ "A.java" :: ["B.java"] := by decide +kernel
  have hfirst : copiedSources.IsFirst runSignature "A.java" :=
    SourcePair.isFirst_of_paths hpaths ⟨.old, hdeclares .old⟩ fun _ h => by cases h
  obtain ⟨reference, hjudged, hsignature, -⟩ := exists_judged_ofSources hvalid haccepts hfirst
  obtain ⟨path, hpath, -, hiff⟩ :=
    sides_of_judged {} (ofSources copiedSources) copiedSources rfl rfl hvalid haccepts reference hjudged
  rw [hsignature] at hpath hiff
  have heq : path = "A.java" := hpath.eq hfirst
  subst heq
  refine ⟨reference, hjudged, hsignature, ?_⟩
  rw [hsignature]
  exact hiff.2 fun side _ _ => hdeclares side

/-- A file that is moved to a path in front of its own. -/
def movedSources : SourcePair := ⟨.ofList [("B.java", runTree)], .ofList [("A.java", runTree)]⟩

/-- The method of a file that is moved has a reference without its old side, and an artifact without the method
    counts as vulnerable for it. -/
theorem side_lost_movedSources :
    ∃ reference ∈ judged {} (ofSources movedSources),
      movedSources.Declares .old "B.java" reference.signature
        ∧ movedSources.Declares .new "A.java" reference.signature
        ∧ reference.side? .old = none
        ∧ (MethodVerdict.judge reference (.ofFeatures []) {}).verdict = .vulnerable := by
  have hvalid : ∀ tree ∈ movedSources.pre.values ++ movedSources.post.values, tree.validate = .ok () :=
    validate_of_eq_runTree (by decide +kernel)
  have haccepts : ∀ path ∈ movedSources.paths, ({} : Config).acceptsFile path = true := by decide +kernel
  have hold : movedSources.Declares .old "B.java" runSignature := declares_runTree (by decide +kernel)
  have hnew : movedSources.Declares .new "A.java" runSignature := declares_runTree (by decide +kernel)
  have hpaths : movedSources.paths = [] ++ "A.java" :: ["B.java"] := by decide +kernel
  have hfirst : movedSources.IsFirst runSignature "A.java" :=
    SourcePair.isFirst_of_paths hpaths ⟨.new, hnew⟩ fun _ h => by cases h
  obtain ⟨reference, hjudged, hsignature, hsides⟩ := exists_judged_ofSources hvalid haccepts hfirst
  have hlost : reference.side? .old = none := by
    rw [← Option.not_isSome_iff_eq_none, hsides .old]
    -- the path that the file is moved to has no tree before the patch
    rintro ⟨tree, htree, -⟩
    have hnone : movedSources.tree? .old "A.java" = none := by decide +kernel
    rw [hnone] at htree
    cases htree
  obtain ⟨features, hfeatures⟩ := Option.isSome_iff_exists.1 ((hsides .new).2 hnew)
  have hverdict : MethodVerdict.ofMissing reference = (.vulnerable, MethodVerdict.presence features) := by
    obtain ⟨signature, pre, post⟩ := reference
    cases hlost
    cases hfeatures
    rfl
  rw [← hsignature] at hold hnew
  refine ⟨reference, hjudged, hold, hnew, hlost, ?_⟩
  exact congrArg Prod.fst hverdict

end PatchReport

end PatchPresence
