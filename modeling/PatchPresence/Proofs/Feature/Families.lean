/-
  PatchPresence.Proofs.Feature.Families — families of features are switched on and off independently.

  Switches are looked at wherever a walk finds something, several families at one place. So the argument follows
  the walks. A node of source, or an instruction, gives with some switches the features that it gives with all of
  them, less those of the families that are off; what it passes on to its children, the block, the guards of loops
  and the conditions, has no switch in it. By induction over the term, and over the instructions of a block, the
  findings of a whole method are those of all families, filtered.

  A family then takes what it counts from findings of its own kind alone. It does not miss those that are filtered
  out, and it has nothing to take when it is off. Call sites come block by block; a block whose calls are left out
  has no call site at all, as if it had no calls.

  Main results:
    * `FoldedTree.findings_eq` — a walk with switches finds what the full walk finds of the families that are on.
    * `AnalyzedCode.blockFindings_eq`, `AnalyzedCode.loopFindings_eq` — so do the walks over blocks and loops.
    * `FeatureSet.features_restrict` — a feature set of some families is that of all families, the others emptied.
-/
import PatchPresence.Feature.FromSource
import PatchPresence.Patch.Artifact

namespace PatchPresence

/-! ## §1. Switches at one place. -/

/-- Whether a feature belongs to a family that is collected. -/
def Families.includes (families : Families) : Feature → Bool
  | .shape _ => families.shapes
  | .loop _ => families.loops
  | .call _ => families.callSites
  | .constant _ => families.constants
  | .access _ => families.accesses
  | .creation _ => families.creations

/-- What is given with all families, less what belongs to a family that is off, is what the switches give. -/
def Switched (give : Families → List Feature) : Prop :=
  ∀ families, give families = (give {}).filter families.includes

namespace Switched

variable {give other : Families → List Feature}

theorem nil : Switched fun _ => [] := fun _ => rfl

theorem append (h : Switched give) (hother : Switched other) :
    Switched fun families => give families ++ other families := by
  intro families
  rw [List.filter_append, ← h families, ← hother families]

theorem flatMap {α : Type} {each : Families → α → List Feature} (items : List α)
    (h : ∀ item, Switched fun families => each families item) :
    Switched fun families => items.flatMap (each families) := by
  intro families
  rw [List.filter_flatMap]
  exact congrArg items.flatMap (funext fun item => h item families)

/-- A choice that no switch takes part in. -/
theorem ite {condition : Prop} [Decidable condition] (h : Switched give) (hother : Switched other) :
    Switched fun families => if condition then give families else other families := by
  by_cases hcondition : condition
  · simpa only [if_pos hcondition] using h
  · simpa only [if_neg hcondition] using hother

/-- Features of one family, behind the switch of that family. -/
theorem of_family {α : Type} (switch : Families → Bool) (make : α → Feature) (hon : switch {} = true)
    (h : ∀ a (families : Families), families.includes (make a) = switch families) (items : List α) :
    Switched fun families => if switch families then items.map make else [] := by
  intro families
  have hall : families.includes ∘ make = fun _ => switch families := funext fun a => h a families
  show (if switch families then items.map make else [])
    = (if switch {} then items.map make else []).filter families.includes
  rw [if_pos hon, List.filter_map, hall]
  cases hswitch : switch families with
  | true => rw [if_pos rfl, List.filter_eq_self.2 fun _ _ => rfl]
  | false => rw [if_neg Bool.false_ne_true, List.filter_eq_nil_iff.2 fun _ _ => Bool.false_ne_true, List.map_nil]

theorem of_option {α : Type} (switch : Families → Bool) (make : α → Feature) (hon : switch {} = true)
    (h : ∀ a (families : Families), families.includes (make a) = switch families) (found : Option α) :
    Switched fun families => if switch families then (found.map make).toList else [] := by
  rw [Option.toList_map]
  exact of_family switch make hon h found.toList

theorem shape (shape : Shape) : Switched (·.shape shape) :=
  of_option Families.shapes Feature.shape rfl (fun _ _ => rfl) (some shape)

theorem loop (signature : LoopSignature) : Switched (·.loop signature) :=
  of_option Families.loops Feature.loop rfl (fun _ _ => rfl) (some signature)

theorem constant (value : Constant) : Switched (·.constant value) :=
  of_option Families.constants Feature.constant rfl (fun _ _ => rfl) (Feature.normalForm value)

theorem call (owner name : String) (arity : Nat) : Switched (·.call owner name arity) :=
  of_option Families.callSites Feature.call rfl (fun _ _ => rfl) (Feature.callKey? owner name arity)

theorem access (key? : Option String) : Switched (·.access key?) :=
  of_option Families.accesses Feature.access rfl (fun _ _ => rfl) key?

theorem creation (key? : Option String) : Switched (·.creation key?) :=
  of_option Families.creations Feature.creation rfl (fun _ _ => rfl) key?

end Switched

/-! ## §2. The walk over source. -/

namespace FoldedTree

variable (source : FoldedTree)

theorem switched_foldedFeatures (id : Nat) : Switched (source.foldedFeatures · id) := by
  unfold foldedFeatures
  refine .ite .nil ?_
  cases source.constants.value? id with
  | none => exact .nil
  | some value => exact .constant value

theorem switched_leafFeatures (withShapes : Bool) (leaf : Leaf) :
    Switched (leafFeatures · withShapes leaf) := by
  unfold leafFeatures
  cases leaf.term.kind with
  | binary op => exact .ite (.flatMap _ fun shape => .shape shape) .nil
  | invocation | instanceOf => exact .nil
  | _ => exact .constant _

theorem switched_conditionFeatures (withShapes : Bool) (term : Term) :
    Switched (source.conditionFeatures · withShapes term) :=
  .flatMap _ fun leaf => switched_leafFeatures withShapes leaf

theorem switched_materialized (term : Term) : Switched (source.materialized · term) :=
  .append (.append (source.switched_conditionFeatures true term) (.constant _)) (.constant _)

theorem switched_headFeatures (kind : LoopKind) : Switched (headFeatures · kind) := by
  rcases kind with _ | _ | _ | overArray
  case forEach =>
    cases overArray with
    | true => exact .append (.append (.access _) (.constant _)) (.constant _)
    | false => exact .append (.call _ _ _) (.call _ _ _)
  all_goals exact .nil

theorem switched_loopFeatures (id : Nat) (kind : LoopKind) (children : List Term) :
    Switched (source.loopFeatures · id kind children) := by
  have hcondition := Switched.flatMap (loopCondition? children).toList (source.switched_conditionFeatures false)
  exact .append (.append (.append (.shape _) (switched_headFeatures kind)) hcondition) (.loop _)

theorem switched_shiftFeatures (op : BinaryOp) : Switched (shiftFeatures · op) := by
  cases op with
  | shl | shr | ushr => exact .shape _
  | _ => exact .nil

theorem switched_initializerFeatures (count : Nat) : Switched (initializerFeatures · count) :=
  .flatMap _ fun _ => .constant _

/-- What a node gives, over the kinds of nodes. -/
theorem switched_nodeFeatures (place : Place) (id : Nat) (kind : NodeKind) (children : List Term) :
    Switched fun families => (source.nodeFeatures families place id kind children).1 := by
  cases kind with
  | localDecl name type isFinal =>
    cases hhead : children.head? with
    | none => simpa only [nodeFeatures, hhead] using Switched.nil
    | some init =>
      cases hvalue : source.constants.value? init.id with
      | none => simpa only [nodeFeatures, hhead, hvalue] using Switched.nil
      | some value =>
        by_cases hfolded : source.isFolded init.id init.kind = true
        · simpa only [nodeFeatures, hhead, hvalue, if_pos hfolded] using .flatMap _ fun _ => .constant _
        · simpa only [nodeFeatures, hhead, hvalue, if_neg hfolded] using Switched.nil
  | ifStmt | conditional => exact .flatMap _ fun term => source.switched_conditionFeatures _ term
  | loop loopKind => exact source.switched_loopFeatures id loopKind children
  | switch | synchronizedStmt | throwStmt | returnStmt | instanceOf => exact .shape _
  | binary op => exact .append (switched_shiftFeatures op) (.ite (source.switched_materialized _) .nil)
  | unary op =>
    by_cases hnot : (op == .not) = true
    · simpa only [nodeFeatures, if_pos hnot] using .ite .nil (source.switched_materialized _)
    · by_cases hstep : op.isStep = true
      · simp only [nodeFeatures, if_neg hnot, if_pos hstep]
        refine .append (.constant _) ?_
        split
        · exact .access _
        · exact .nil
      · simpa only [nodeFeatures, if_neg hnot, if_neg hstep] using Switched.nil
  | assign target op =>
    cases op with
    | none => exact .nil
    | some op => exact switched_shiftFeatures op
  | fieldRead | arrayLength => exact .access _
  | fieldWrite owner name isStatic op =>
    cases op with
    | none => exact .append .nil (.access _)
    | some op => exact .append (.append (switched_shiftFeatures op) (.access _)) (.access _)
  | invocation => exact .call _ _ _
  | newObject type => exact .append (.creation _) (.call _ _ _)
  | newArray element hasInitializer =>
    exact .append (.creation _) (.ite (switched_initializerFeatures _) .nil)
  | _ => exact .nil

/-- No switch has a part in the way down. -/
theorem nodeFeatures_descent (families : Families) (place : Place) (id : Nat) (kind : NodeKind)
    (children : List Term) : (source.nodeFeatures families place id kind children).2
      = (source.nodeFeatures {} place id kind children).2 := by
  cases kind with
  | localDecl name type isFinal =>
    simp only [nodeFeatures]
    split
    · split
      · split
        · rfl
        · rfl
      · rfl
    · rfl
  | unary op =>
    simp only [nodeFeatures]
    split
    · rfl
    · split
      · rfl
      · rfl
  | assign target op => cases op <;> rfl
  | _ => rfl

end FoldedTree

/-! ## §3. Walks. -/

/-- Findings of the families that are collected. -/
def Families.kept (families : Families) (findings : List Finding) : List Finding :=
  findings.filter fun finding => families.includes finding.feature

theorem Families.kept_append (families : Families) (findings others : List Finding) :
    families.kept (findings ++ others) = families.kept findings ++ families.kept others :=
  List.filter_append _ _

/-- What is given at one place is filed there. -/
theorem Switched.kept {give : Families → List Feature} (h : Switched give) (families : Families) (block : Nat) :
    (give families).map (⟨block, ·⟩) = families.kept ((give {}).map (⟨block, ·⟩)) := by
  unfold Families.kept
  rw [List.filter_map, h families]
  rfl

namespace FoldedTree

mutual

/-- The walk with switches finds what the full walk finds of the families that are on. -/
theorem findings_eq (source : FoldedTree) (families : Families) (place : Place) :
    ∀ term, source.findings families place term = families.kept (source.findings {} place term)
  | .node id kind children => by
    unfold findings
    by_cases hfolded : source.isFolded id kind = true
    · rw [if_pos hfolded, if_pos hfolded]
      exact (source.switched_foldedFeatures id).kept families place.block
    · rw [if_neg hfolded, if_neg hfolded, Families.kept_append,
        ← (source.switched_nodeFeatures place id kind children).kept families place.block]
      -- the way down is the same, so that what is below is walked in the same surroundings
      rw [← findingsAll_eq source families _ _ _ children, ← source.nodeFeatures_descent families]

theorem findingsAll_eq (source : FoldedTree) (families : Families) (place : Place) (firstInCondition : Bool)
    (count : Nat) : ∀ terms, source.findingsAll families place firstInCondition count terms
      = families.kept (source.findingsAll {} place firstInCondition count terms)
  | [] => by
    unfold findingsAll
    rfl
  | term :: rest => by
    unfold findingsAll
    cases count with
    | zero => rfl
    | succ count =>
      rw [Families.kept_append, ← findings_eq source families _ term,
        ← findingsAll_eq source families _ _ count rest]

end

theorem methodFindings_eq (source : FoldedTree) (families : Families) (method : Nat) :
    source.methodFindings families method = families.kept (source.methodFindings {} method) := by
  have hending : Switched fun families =>
      if fallsOffEnd source.tree method then families.shape .returnExit else [] := .ite (.shape _) .nil
  unfold methodFindings
  rw [Families.kept_append, ← findingsAll_eq, ← hending.kept families method]

end FoldedTree

namespace AnalyzedCode

/-- The features of one kind that an instruction has belong to one family. -/
theorem exists_shapesOf_eq (control : List Nat) (inst : Instruction) :
    ∃ shapes : List Shape, shapesOf control inst = shapes.map Feature.shape := by
  unfold shapesOf
  split
  · exact ⟨[], rfl⟩
  · exact ⟨_, Option.toList_map⟩

theorem exists_constantsOf_eq (previous : Option Instruction) (inst : Instruction) :
    ∃ values : List Constant, constantsOf previous inst = values.map Feature.constant := by
  unfold constantsOf
  split
  · exact ⟨_, Option.toList_map⟩
  · split
    · next delta _ => exact ⟨[.int (Int32.ofNat delta.toInt.natAbs)], rfl⟩
    · split
      · exact ⟨[.int 0], rfl⟩
      · exact ⟨[], rfl⟩

theorem exists_callsOf_eq (code : AnalyzedCode) (inst : Instruction) :
    ∃ targets : List String, code.callsOf inst = targets.map Feature.call := by
  unfold callsOf
  split
  · split
    · exact ⟨[], rfl⟩
    · split
      · exact ⟨_, Option.toList_map⟩
      · exact ⟨[], rfl⟩
  · exact ⟨[], rfl⟩

theorem exists_accessesOf_eq (inst : Instruction) :
    ∃ keys : List String, accessesOf inst = keys.map Feature.access := by
  unfold accessesOf
  split
  · exact ⟨_, Option.toList_map⟩
  · split
    · exact ⟨[Feature.arrayLengthKey], rfl⟩
    · exact ⟨[], rfl⟩

theorem exists_creationsOf_eq (inst : Instruction) :
    ∃ keys : List String, creationsOf inst = keys.map Feature.creation := by
  unfold creationsOf
  split
  · split
    · exact ⟨_, Option.toList_map⟩
    · split
      · exact ⟨[_], rfl⟩
      · exact ⟨[], rfl⟩
  · exact ⟨[_], rfl⟩
  · exact ⟨[_], rfl⟩
  · exact ⟨[], rfl⟩

/-- What an instruction gives, family by family. -/
theorem switched_featuresOf (code : AnalyzedCode) (control : List Nat) (previous : Option Instruction)
    (inst : Instruction) : Switched (code.featuresOf · control previous inst) := by
  obtain ⟨shapes, hshapes⟩ := exists_shapesOf_eq control inst
  obtain ⟨values, hvalues⟩ := exists_constantsOf_eq previous inst
  obtain ⟨targets, htargets⟩ := code.exists_callsOf_eq inst
  obtain ⟨keys, hkeys⟩ := exists_accessesOf_eq inst
  obtain ⟨created, hcreated⟩ := exists_creationsOf_eq inst
  unfold featuresOf
  rw [hshapes, hvalues, htargets, hkeys, hcreated]
  refine .append (.append (.append (.append ?_ ?_) ?_) ?_) ?_
  · exact .of_family Families.shapes Feature.shape rfl (fun _ _ => rfl) shapes
  · exact .of_family Families.constants Feature.constant rfl (fun _ _ => rfl) values
  · exact .of_family Families.callSites Feature.call rfl (fun _ _ => rfl) targets
  · exact .of_family Families.accesses Feature.access rfl (fun _ _ => rfl) keys
  · exact .of_family Families.creations Feature.creation rfl (fun _ _ => rfl) created

/-- Consecutive instructions: each looks at the one before it, whatever is collected. -/
theorem switched_featuresFrom (code : AnalyzedCode) (control : List Nat) (previous : Option Instruction)
    (instructions : List Instruction) : Switched (code.featuresFrom · control previous instructions) := by
  induction instructions generalizing previous with
  | nil => exact .nil
  | cons inst rest ih => exact .append (code.switched_featuresOf control previous inst) (ih (some inst))

theorem loopFindings_eq (code : AnalyzedCode) (families : Families) :
    code.loopFindings families = families.kept (code.loopFindings {}) := by
  unfold loopFindings Families.kept
  rw [List.filter_flatMap]
  have hloop (loop : NaturalLoop) : Switched fun families =>
      families.shape .loop ++ families.loop (code.loopSignature loop) := .append (.shape _) (.loop _)
  exact congrArg code.loops.flatMap (funext fun loop => (hloop loop).kept families loop.header)

theorem blockFindings_eq (code : AnalyzedCode) (families : Families) :
    code.blockFindings families = families.kept (code.blockFindings {}) := by
  unfold blockFindings Families.kept
  rw [List.filter_flatMap]
  exact congrArg (List.flatMap · _) <| funext fun block =>
    (code.switched_featuresFrom _ none block.instructions).kept families block.index

end AnalyzedCode

/-! ## §4. One family. -/

namespace FeatureSet

variable {families : Families}

/-- What is picked from features of one family is picked from the findings that are kept, or not at all. -/
theorem filterMap_kept {β : Type} {pick : Feature → Option β} {collected : Bool}
    (hpick : ∀ feature, (pick feature).isSome = true → families.includes feature = collected)
    (features : List Feature) :
    (features.filter families.includes).filterMap pick = if collected then features.filterMap pick else [] := by
  have hpicked : ∀ feature, (if families.includes feature = true then pick feature else none)
      = if collected then pick feature else none := by
    intro feature
    cases hfeature : pick feature with
    | none => rw [ite_self, ite_self]
    | some picked => rw [hpick feature (by rw [hfeature]; rfl)]
  rw [List.filterMap_filter, funext hpicked]
  cases collected with
  | true => rfl
  | false => exact List.filterMap_eq_nil_iff.2 fun _ _ => rfl

/-- Findings that are kept, seen as features. -/
theorem map_kept (findings : List Finding) : (families.kept findings).map Finding.feature
    = (findings.map Finding.feature).filter families.includes := by
  rw [List.filter_map]
  rfl

/-- Each family takes from the features that are kept all that it would take, or nothing. -/
theorem families_kept (families : Families) (features : List Feature) :
    shapesOf (features.filter families.includes) = (if families.shapes then shapesOf features else [])
      ∧ loopsOf (features.filter families.includes) = (if families.loops then loopsOf features else [])
      ∧ callsOf (features.filter families.includes) = (if families.callSites then callsOf features else [])
      ∧ constantsOf (features.filter families.includes) = (if families.constants then constantsOf features else [])
      ∧ accessesOf (features.filter families.includes) = (if families.accesses then accessesOf features else [])
      ∧ creationsOf (features.filter families.includes)
          = (if families.creations then creationsOf features else []) := by
  refine ⟨filterMap_kept ?_ features, filterMap_kept ?_ features, filterMap_kept ?_ features,
    filterMap_kept ?_ features, filterMap_kept ?_ features, filterMap_kept ?_ features⟩
  -- of the six kinds of features, a family picks the one whose switch it has
  all_goals
    intro feature hfeature
    cases feature <;> simp [Families.includes] at hfeature ⊢

/-- A block whose calls are left out has no call site, as if it had no calls. -/
theorem callSite?_kept (findings : List Finding) (block : Nat) :
    callSite? (families.kept findings) block = if families.callSites then callSite? findings block else none := by
  -- the findings of the block can be taken first, and then those of the families
  have hswap : (families.kept findings).filter (·.block = block)
      = families.kept (findings.filter (·.block = block)) := by
    unfold Families.kept
    rw [List.filter_filter, List.filter_filter]
    exact List.filter_congr fun _ _ => Bool.and_comm _ _
  unfold callSite?
  rw [hswap, map_kept, (families_kept families _).2.2.1]
  cases families.callSites with
  | true => rfl
  | false => rfl

/-! ## §5. All families. -/

/-- The set with the families that are not collected emptied, and with the others as they are. -/
def restrict (set : FeatureSet) (families : Families) : FeatureSet :=
  { set with
    shapes := if families.shapes then set.shapes else .empty
    loops := if families.loops then set.loops else []
    callSites := if families.callSites then set.callSites else []
    constants := if families.constants then set.constants else .empty
    accesses := if families.accesses then set.accesses else .empty
    creations := if families.creations then set.creations else .empty }

/-- Counting what is kept is counting all and emptying the families that are off. -/
theorem ofFindings_kept (origin : Origin) (method : String) (families : Families) (blocks : List Nat)
    (findings : List Finding) : ofFindings origin method blocks (families.kept findings)
      = (ofFindings origin method blocks findings).restrict families := by
  obtain ⟨hshapes, hloops, -, hconstants, haccesses, hcreations⟩ :=
    families_kept families (findings.map Finding.feature)
  have hsorted : (loopsOf ((findings.map Finding.feature).filter families.includes)).mergeSort
        (fun a b => (compare a b).isLE)
      = if families.loops then (loopsOf (findings.map Finding.feature)).mergeSort fun a b => (compare a b).isLE
        else [] := by
    rw [hloops]
    cases families.loops with
    | true => rfl
    | false => exact List.mergeSort_nil
  have hcalls : blocks.filterMap (callSite? (families.kept findings))
      = if families.callSites then blocks.filterMap (callSite? findings) else [] := by
    rw [funext (callSite?_kept findings)]
    cases families.callSites with
    | true => rfl
    | false => exact List.filterMap_eq_nil_iff.2 fun _ _ => rfl
  simp only [ofFindings, restrict, map_kept, hshapes, hsorted, hconstants, haccesses, hcreations, hcalls]
  congr 1 <;> split <;> rfl

theorem source_restrict (source : FoldedTree) (method : Nat) (families : Families) :
    source.features method families = (source.features method {}).restrict families := by
  unfold FoldedTree.features
  rw [source.methodFindings_eq families, ofFindings_kept]
  -- without calls no blocks are gathered, and with all families all are
  cases hcalls : families.callSites with
  | true => rfl
  | false => simp only [restrict, hcalls, Bool.false_eq_true, if_false, ofFindings]

theorem code_restrict (code : AnalyzedCode) (families : Families) :
    code.features families = (code.features {}).restrict families := by
  unfold AnalyzedCode.features
  rw [code.loopFindings_eq families, code.blockFindings_eq families, ← Families.kept_append, ofFindings_kept]

/-- Switches empty families and do nothing else: what is found with some families is what is found with all of
    them, with the families that are off emptied. That holds of every method of a source file with any constants,
    of every analysed method body, and of the analysis of every method body, which fails with the same error. -/
theorem features_restrict (families : Families) :
    (∀ (source : FoldedTree) (method : Nat),
        source.features method families = (source.features method {}).restrict families)
      ∧ (∀ code : AnalyzedCode, code.features families = (code.features {}).restrict families)
      ∧ ∀ (body : MethodBody) (config : Config), body.features { config with families }
          = (body.features { config with families := {} }).map (·.restrict families) := by
  refine ⟨fun source method => source_restrict source method families, fun code => code_restrict code families, ?_⟩
  intro body config
  show body.features { config with families } = (·.restrict families) <$> body.features { config with families := {} }
  unfold MethodBody.features
  simp only [map_bind]
  -- no step of the analysis before the last one looks at the families
  refine bind_congr fun graph => bind_congr fun dominators => bind_congr fun typing => ?_
  exact congrArg pure (code_restrict _ families)

end FeatureSet

end PatchPresence
