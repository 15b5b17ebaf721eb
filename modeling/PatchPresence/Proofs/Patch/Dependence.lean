/-
  PatchPresence.Proofs.Patch.Dependence — what a report depends on.

  A report is made in stages: the sources that can be used, the references that they give besides the known
  ones, the methods that the diff touches, and a verdict on each reference among these. Only the first stage
  sees trees with broken links, and only the last one sees the artifact, of which it looks at the methods with
  the owner and the name of a reference.

  Main results:
    * `PatchReport.analyze_eq` — a report is made from the references that are judged.
    * `TargetArtifact.resolve?_add` — a method is found without a look at methods with another name.
    * `PatchReport.analyze_add` — methods that share owner and name with no reference do not matter.
    * `PatchReport.analyze_withoutBroken` — trees with broken links do not matter, but for the errors.
-/
import PatchPresence.Patch.Report
import PatchPresence.Proofs.KeyOrder
import PatchPresence.Proofs.Outcome

namespace PatchPresence

/-! ## §1. The stages of a report. -/

/-- The sources with right links. -/
def Vulnerability.usable (vulnerability : Vulnerability) : SourcePair := (vulnerability.sources.getD {}).valid

namespace PatchReport

variable (config : Config) (vulnerability : Vulnerability) (artifact : TargetArtifact)

/-- References of the sources, file by file. -/
def derived : List (String × Outcome (List ReferenceMethod)) :=
  vulnerability.usable.references config.library config

/-- References by signature. -/
def known : Table MethodSignature ReferenceMethod :=
  references vulnerability.methods (derived config vulnerability)

/-- Methods that the diff touches; all that are known when it touches none. -/
def affected : List MethodSignature :=
  let changed := touched (FileDiff.parse vulnerability.diff vulnerability.usable) config
  if changed.isEmpty then (known config vulnerability).keys else changed

/-- The references that a verdict is given on. -/
def judged : List ReferenceMethod := (affected config vulnerability).filterMap (known config vulnerability).get?

/-- A report is made from the verdicts on the references that are judged. -/
theorem analyze_eq :
    analyze config vulnerability artifact =
      let methods := (judged config vulnerability).map fun reference =>
        MethodVerdict.judge reference artifact config
      { advisoryId := vulnerability.advisoryId
        artifact := vulnerability.artifact.text
        verdict := (Verdict.aggregate methods config.presenceThreshold).1
        patchedRatio := (Verdict.aggregate methods config.presenceThreshold).2
        methods
        diffErrors := (vulnerability.sources.getD {}).errors
          ++ referenceErrors (derived config vulnerability)
          ++ fileErrors (FileDiff.parse vulnerability.diff vulnerability.usable) } := rfl

variable {vulnerability} {other : Vulnerability}

theorem derived_congr (h : other.usable = vulnerability.usable) :
    derived config other = derived config vulnerability := by
  rw [derived, h, derived]

/-- Which references are judged depends on the sources that can be used, not on the others. -/
theorem judged_congr (h : other.usable = vulnerability.usable) (hmethods : other.methods = vulnerability.methods)
    (hdiff : other.diff = vulnerability.diff) : judged config other = judged config vulnerability := by
  have hknown : known config other = known config vulnerability := by
    rw [known, derived_congr config h, hmethods, known]
  have haffected : affected config other = affected config vulnerability := by
    rw [affected, h, hdiff, hknown, affected]
  rw [judged, haffected, hknown, judged]

end PatchReport

/-! ## §2. Other methods of the artifact. -/

namespace TargetArtifact

/-- The artifact with a further method. -/
def add (artifact : TargetArtifact) (signature : MethodSignature) (outcome : Outcome FeatureSet) :
    TargetArtifact :=
  ⟨artifact.methods.insert signature outcome⟩

/-- A method is found without a look at methods that have another owner or another name. -/
theorem resolve?_add (artifact : TargetArtifact) {signature other : MethodSignature}
    (h : (signature.owner, signature.name) ≠ (other.owner, other.name)) (outcome : Outcome FeatureSet) :
    (artifact.add signature outcome).resolve? other = artifact.resolve? other := by
  have hget : (artifact.add signature outcome).methods.get? other = artifact.methods.get? other := by
    have hne : other ≠ signature := by
      rintro rfl
      exact h rfl
    rw [add, Table.get?_insert, if_neg hne]
  -- the only method with an owner and a name is looked for among those that have both
  have hnamesakes : ((artifact.add signature outcome).methods.entries.filter fun entry =>
        entry.1.owner = other.owner && entry.1.name = other.name) =
      artifact.methods.entries.filter fun entry =>
        entry.1.owner = other.owner && entry.1.name = other.name := by
    apply Table.filter_upsert
    intro value
    simpa [Prod.ext_iff] using h
  unfold resolve?
  rw [hget, hnamesakes]

end TargetArtifact

namespace PatchReport

/-- Methods of the artifact that have not the owner and the name of a reference that is judged, whether they have
    features or an error, do not matter to the report. -/
theorem analyze_add (config : Config) (vulnerability : Vulnerability) (artifact : TargetArtifact)
    (signature : MethodSignature) (outcome : Outcome FeatureSet)
    (h : ∀ reference ∈ judged config vulnerability,
      (signature.owner, signature.name) ≠ (reference.signature.owner, reference.signature.name)) :
    analyze config vulnerability (artifact.add signature outcome) = analyze config vulnerability artifact := by
  have hmethods : ((judged config vulnerability).map fun reference =>
        MethodVerdict.judge reference (artifact.add signature outcome) config) =
      (judged config vulnerability).map fun reference => MethodVerdict.judge reference artifact config := by
    apply List.map_congr_left
    intro reference hreference
    unfold MethodVerdict.judge
    rw [artifact.resolve?_add (h reference hreference) outcome]
  rw [analyze_eq, analyze_eq, hmethods]

/-- A patch that removes a method. -/
def removedCheck : Vulnerability where
  advisoryId := "X-1"
  artifact := ⟨"g", "a", "1"⟩
  diff := ""
  methods := [
    ⟨⟨"a/Filter", "check", "()V", false⟩, some ⟨.source, "", .empty, [], [], .empty, .empty, .empty⟩, none⟩]
  sources := none

/-- An artifact that has the method with another descriptor only. -/
def checkingArtifact : TargetArtifact :=
  .ofFeatures [
    (⟨"a/Filter", "check", "(I)V", false⟩, ⟨.bytecode, "", .empty, [], [], .empty, .empty, .empty⟩)]

/-- The method is found by its name alone, also beside a method of its class that could not be analysed. -/
theorem analyze_add_open :
    (judged {} removedCheck).map (fun reference => (checkingArtifact.resolve? reference.signature).isSome) = [true]
      ∧ (∀ reference ∈ judged {} removedCheck,
        ("a/Filter", "open") ≠ (reference.signature.owner, reference.signature.name))
      ∧ analyze {} removedCheck
          (checkingArtifact.add ⟨"a/Filter", "open", "()V", true⟩ (.error (.malformedCode 0 .empty)))
        = analyze {} removedCheck checkingArtifact :=
  ⟨by decide +kernel, by decide +kernel, analyze_add _ _ _ _ _ (by decide +kernel)⟩

end PatchReport

/-! ## §3. Trees with broken links. -/

namespace SourcePair

/-- The tree of a side at a path. -/
def tree? (sources : SourcePair) : Side → String → Option SyntaxTree
  | .old => sources.pre.get?
  | .new => sources.post.get?

/-- The trees that pass the check of their links. -/
def passing (trees : Table String SyntaxTree) : Table String SyntaxTree :=
  ⟨trees.entries.filter fun entry => entry.2.validate = .ok ()⟩

/-- The sources without the trees that fail the check of their links. -/
def withoutBroken (sources : SourcePair) : SourcePair := ⟨passing sources.pre, passing sources.post⟩

theorem validTrees_eq_passing (trees : Table String SyntaxTree) : validTrees trees = passing trees := by
  have hcheck (outcome : Outcome Unit) : outcome.toBool = decide (outcome = .ok ()) := by
    cases outcome with
    | error error => rfl
    | ok _ => rfl
  unfold validTrees passing Table.filterValues
  simp only [hcheck]

theorem valid_eq_withoutBroken (sources : SourcePair) : sources.valid = sources.withoutBroken := by
  rw [valid, validTrees_eq_passing, validTrees_eq_passing, withoutBroken]

theorem passing_passing (trees : Table String SyntaxTree) : passing (passing trees) = passing trees := by
  simp [passing]

/-- What is left when the broken trees are gone has right links. -/
theorem valid_withoutBroken (sources : SourcePair) : sources.withoutBroken.valid = sources.valid := by
  simp only [valid_eq_withoutBroken, withoutBroken, passing_passing]

theorem validate_of_mem_passing {trees : Table String SyntaxTree} {entry : String × SyntaxTree}
    (h : entry ∈ (passing trees).entries) : entry.2.validate = .ok () := by
  simpa using (List.mem_filter.1 h).2

theorem validate_of_withoutBroken {sources : SourcePair} {side : Side} {path : String} {tree : SyntaxTree}
    (h : sources.withoutBroken.tree? side path = some tree) : tree.validate = .ok () := by
  cases side with
  | old => exact validate_of_mem_passing (Table.mem_entries_of_get? h)
  | new => exact validate_of_mem_passing (Table.mem_entries_of_get? h)

theorem treeErrors_passing (trees : Table String SyntaxTree) : treeErrors (passing trees) = [] := by
  rw [treeErrors, List.filterMap_eq_nil_iff]
  intro tree htree
  obtain ⟨entry, hentry, rfl⟩ := List.mem_map.1 htree
  rw [validate_of_mem_passing hentry]

theorem errors_withoutBroken (sources : SourcePair) : sources.withoutBroken.errors = [] := by
  rw [errors, withoutBroken, treeErrors_passing, treeErrors_passing, List.append_nil]

end SourcePair

namespace ReferenceMethod

variable (library : LibraryConstants) (families : Families)

/-- Features of the methods of a tree by signature; none when there is no tree. -/
def sideFeatures (tree : Option SyntaxTree) : List (MethodSignature × FeatureSet) :=
  (tree.map fun tree => ofTree tree library families).getD []

/-- References for every method of the trees of a file, by signature. -/
def fileTable (trees : Side → Option SyntaxTree) : Table MethodSignature ReferenceMethod :=
  (sideFeatures library families (trees .new)).foldl withPost
    ((sideFeatures library families (trees .old)).foldl withPre .empty)

theorem ofSide_eq_ok {tree : Option SyntaxTree} (h : ∀ held ∈ tree, held.validate = .ok ()) :
    ofSide tree library families = .ok (sideFeatures library families tree) := by
  cases tree with
  | none => rfl
  | some tree =>
    rw [ofSide, h tree rfl]
    rfl

/-- Trees with right links have references. -/
theorem ofTrees_eq_ok {trees : Side → Option SyntaxTree}
    (h : ∀ side, ∀ held ∈ trees side, held.validate = .ok ()) :
    ofTrees (trees .old) (trees .new) library families = .ok (fileTable library families trees).values := by
  rw [ofTrees, ofSide_eq_ok library families (h .old), ofSide_eq_ok library families (h .new)]
  rfl

end ReferenceMethod

namespace PatchReport

theorem validate_of_usable {vulnerability : Vulnerability} {side : Side} {path : String} {tree : SyntaxTree}
    (h : vulnerability.usable.tree? side path = some tree) : tree.validate = .ok () := by
  rw [Vulnerability.usable, SourcePair.valid_eq_withoutBroken] at h
  exact SourcePair.validate_of_withoutBroken h

/-- Every file with usable sources has references. -/
theorem derived_eq (config : Config) (vulnerability : Vulnerability) :
    derived config vulnerability = (vulnerability.usable.paths.filter config.acceptsFile).map fun path =>
      (path, .ok (ReferenceMethod.fileTable config.library config.families
        (vulnerability.usable.tree? · path)).values) := by
  apply List.map_congr_left
  intro path _
  have hvalid : ∀ side, ∀ tree ∈ vulnerability.usable.tree? side path, tree.validate = .ok () :=
    fun _ _ htree => validate_of_usable htree
  exact congrArg (Prod.mk path) (ReferenceMethod.ofTrees_eq_ok config.library config.families hvalid)

/-- Trees with broken links do not matter to the report, but for what it says of them, and every file that
    is left has references. -/
theorem analyze_withoutBroken (config : Config) (vulnerability : Vulnerability) (artifact : TargetArtifact) :
    let cleaned := { vulnerability with sources := vulnerability.sources.map SourcePair.withoutBroken }
    analyze config vulnerability artifact =
        { analyze config cleaned artifact with
          diffErrors := (vulnerability.sources.getD {}).errors ++ (analyze config cleaned artifact).diffErrors }
      ∧ ∀ file ∈ derived config vulnerability, ∃ methods, file.2 = .ok methods := by
  intro cleaned
  have hok : ∀ file ∈ derived config vulnerability, ∃ methods, file.2 = .ok methods := by
    intro file hfile
    rw [derived_eq] at hfile
    obtain ⟨path, -, rfl⟩ := List.mem_map.1 hfile
    exact ⟨_, rfl⟩
  have hsources : cleaned.sources.getD {} = (vulnerability.sources.getD {}).withoutBroken := by
    show (vulnerability.sources.map SourcePair.withoutBroken).getD {} = _
    cases vulnerability.sources with
    | none => rfl
    | some sources => rfl
  have husable : cleaned.usable = vulnerability.usable := by
    rw [Vulnerability.usable, hsources, SourcePair.valid_withoutBroken, Vulnerability.usable]
  have herrors : (cleaned.sources.getD {}).errors = [] := by
    rw [hsources, SourcePair.errors_withoutBroken]
  have hjudged : judged config cleaned = judged config vulnerability := judged_congr config husable rfl rfl
  refine ⟨?_, hok⟩
  rw [analyze_eq, analyze_eq, hjudged, derived_congr config husable, husable, herrors]
  rw [List.nil_append, List.append_assoc]

end PatchReport

end PatchPresence
