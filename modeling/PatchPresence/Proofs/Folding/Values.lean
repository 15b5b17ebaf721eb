/-
  PatchPresence.Proofs.Folding.Values — what the value of an expression is made of.

  Without local variables an expression is folded from the values of its operands and of the fields that it
  reads. What is known of more fields changes no value that was found before. A compile-time constant is made
  from fields that all have values. The positions of the nodes take no part.

  Main results:
    * `Term.value_mono` — folding is monotone in what is known of fields.
    * `Term.Reads.known` — a compile-time constant is made from fields whose values are known.
    * `Term.value_shape` — the value of an expression hangs on its shape alone.
-/
import PatchPresence.Proofs.Folding.Records
import PatchPresence.Proofs.KeyOrder
import PatchPresence.Proofs.Source.Rearrangement

namespace PatchPresence

/-! ## §1. Values from operands. -/

namespace Term

/-- The children that the value of an expression may be made of. -/
def operands (node : Term) : List Term :=
  node.children.take ((Plan.expression .empty node.kind).count.getD node.children.length)

theorem values_visitAll_each (context : FoldContext) (mode : Mode) (count : Nat) (env : Env)
    (children : List Term) :
    (visitAll context (.each mode) count env children).values
      = (children.take count).map fun child => (child.visit context mode env).value := by
  induction children generalizing count with
  | nil => rw [visitAll, List.take_nil, List.map_nil]
  | cons child rest ih =>
    cases count with
    | zero => rw [visitAll, List.take_zero, List.map_nil]
    | succ count =>
      rw [visitAll, List.take_succ_cons, List.map_cons, ← ih count]
      rfl

/-- The value of a node is that of its kind and of its operands; a statement has none. -/
theorem value_evaluate (context : FoldContext) (env : Env) (node : Term) :
    (node.visit context .evaluate env).value
      = if node.kind.isStatement then none
        else foldKind context env node.kind node.children
          (node.operands.map fun child => (child.visit context .evaluate env).value) := by
  cases hstatement : node.kind.isStatement with
  | true =>
    have hrole : Mode.evaluate.role node.kind = .statement := by simp [Mode.role, hstatement]
    rw [visit_eq, if_pos rfl]
    unfold Visit.finish
    rw [hrole]
    dsimp only
    split <;> rfl
  | false =>
    have hrole : Mode.evaluate.role node.kind = .expression := by simp [Mode.role, hstatement]
    rw [(visit_of_expression hrole).1, if_neg (by simp)]
    -- the children of a lambda are visited in another way, but it has no value in any case
    by_cases hlambda : node.kind = .lambda
    · rw [hlambda]
      rfl
    · have hplan : node.plan .evaluate env
          = ⟨.each .evaluate, (Plan.expression .empty node.kind).count, env⟩ := by
        unfold plan
        rw [hrole]
        generalize node.kind = kind at hlambda
        cases kind <;> first | rfl | exact absurd rfl hlambda
      unfold visitParts visitCount
      rw [hplan, values_visitAll_each]
      rfl

end Term

/-! ## §2. Fields that are known. -/

/-- Operands keep the values that they have; some may get one. -/
def Kept (operands : List Term) (before after : Term → Option Folded) : Prop :=
  ∀ operand ∈ operands, ∀ folded, before operand = some folded → after operand = some folded

section Monotone

variable {library : LibraryConstants} {known more : Table String Constant}

theorem field?_mono (h : known.Included more) {owner name : String} {folded : Folded}
    (hfield : FoldContext.field? ⟨library, known⟩ owner name = some folded) :
    FoldContext.field? ⟨library, more⟩ owner name = some folded := by
  unfold FoldContext.field? at hfield ⊢
  dsimp only at hfield ⊢
  split at hfield
  · exact hfield
  · split at hfield
    · cases hfield
    · next hplatform =>
      obtain ⟨value, hvalue, rfl⟩ := Option.map_eq_some_iff.1 hfield
      rw [if_neg hplatform, h _ _ hvalue]
      rfl

variable {operands : List Term} {before after : Term → Option Folded}

/-- What one operand gives stays when more operands have values. -/
theorem join_map_mono (h : Kept operands before after)
    {place : Option Term} (hplace : ∀ operand, place = some operand → operand ∈ operands) {folded : Folded}
    (hbefore : (place.map before).join = some folded) : (place.map after).join = some folded := by
  cases place with
  | none => cases hbefore
  | some operand => exact h operand (hplace operand rfl) folded hbefore

theorem foldConditional_mono (h : Kept operands before after)
    {folded : Folded} (hfold : foldConditional (operands.map before) = some folded) :
    foldConditional (operands.map after) = some folded := by
  unfold foldConditional at hfold
  split at hfold
  · next condition yes no heq =>
    -- all three parts have values, so they keep them
    have hafter : operands.map after = operands.map before := by
      refine List.map_congr_left fun operand hoperand => ?_
      have hvalue : before operand ∈ operands.map before := List.mem_map_of_mem hoperand
      rw [heq] at hvalue
      obtain ⟨value, hvalue⟩ : ∃ value, before operand = some value := by
        simp only [List.mem_cons, List.not_mem_nil, or_false] at hvalue
        rcases hvalue with hvalue | hvalue | hvalue
        · exact ⟨_, hvalue⟩
        · exact ⟨_, hvalue⟩
        · exact ⟨_, hvalue⟩
      rw [hvalue, h operand hoperand value hvalue]
    rw [hafter, heq]
    exact hfold
  · cases hfold

theorem foldInvocation_mono (h : Kept operands before after)
    {owner name : String} {arity : Nat} {folded : Folded}
    (hfold : foldInvocation library owner name arity (operands.map before) = some folded) :
    foldInvocation library owner name arity (operands.map after) = some folded := by
  unfold foldInvocation at hfold ⊢
  split at hfold
  · next harity => rwa [if_pos harity]
  · next harity =>
    rw [if_neg harity]
    split at hfold
    · next hbox =>
      rw [if_pos hbox]
      obtain ⟨argument, hargument, hfold⟩ := Option.bind_eq_some_iff.1 hfold
      rw [List.getLast?_map] at hargument ⊢
      exact Option.bind_eq_some_iff.2
        ⟨argument, join_map_mono h (fun operand => List.mem_of_getLast?) hargument, hfold⟩
    · cases hfold

/-- Operators keep the values they had when more operands have values. -/
theorem foldKind_mono (h : known.Included more) {env : Env} {kind : NodeKind} {children : List Term}
    (hoperands : Kept operands before after) {folded : Folded}
    (hfold : foldKind ⟨library, known⟩ env kind children (operands.map before) = some folded) :
    foldKind ⟨library, more⟩ env kind children (operands.map after) = some folded := by
  have hat : ∀ (index : Nat) {folded : Folded}, ((operands.map before)[index]?).join = some folded →
      ((operands.map after)[index]?).join = some folded := by
    intro index folded hbefore
    rw [List.getElem?_map] at hbefore ⊢
    exact join_map_mono hoperands (fun operand => List.mem_of_getElem?) hbefore
  cases kind with
  | fieldRead owner name isStatic => exact field?_mono h hfold
  | binary op =>
    obtain ⟨left, hleft, hfold⟩ := Option.bind_eq_some_iff.1 hfold
    obtain ⟨right, hright, hfold⟩ := Option.bind_eq_some_iff.1 hfold
    exact Option.bind_eq_some_iff.2 ⟨left, hat 0 hleft,
      Option.bind_eq_some_iff.2 ⟨right, hat 1 hright, hfold⟩⟩
  | unary op =>
    unfold foldKind at hfold ⊢
    dsimp only at hfold ⊢
    split at hfold
    · cases hfold
    · next hstep =>
      rw [if_neg hstep]
      obtain ⟨operand, hoperand, hfold⟩ := Option.bind_eq_some_iff.1 hfold
      exact Option.bind_eq_some_iff.2 ⟨operand, hat 0 hoperand, hfold⟩
  | cast type =>
    obtain ⟨operand, hoperand, hfold⟩ := Option.bind_eq_some_iff.1 hfold
    exact Option.bind_eq_some_iff.2 ⟨operand, hat 0 hoperand, hfold⟩
  | assign target op =>
    obtain ⟨operand, hoperand, rfl⟩ := Option.map_eq_some_iff.1 hfold
    exact Option.map_eq_some_iff.2 ⟨operand, hat 0 hoperand, rfl⟩
  | conditional => exact foldConditional_mono hoperands hfold
  | invocation owner name arity hasReceiver => exact foldInvocation_mono hoperands hfold
  | _ => exact hfold

/-- What is known of more fields changes no value that was found before. -/
theorem Term.value_mono (h : known.Included more) (node : Term) :
    ∀ env folded, (node.visit ⟨library, known⟩ .evaluate env).value = some folded →
      (node.visit ⟨library, more⟩ .evaluate env).value = some folded := by
  induction node using induct with
  | hnode id kind children ih =>
    intro env folded hvalue
    rw [value_evaluate] at hvalue ⊢
    split at hvalue
    · cases hvalue
    · next hexpression =>
      rw [if_neg hexpression]
      refine foldKind_mono h (fun operand hoperand folded => ?_) hvalue
      exact ih operand (List.mem_of_mem_take hoperand) env folded

end Monotone

/-! ## §3. Fields that are read. -/

/-- The value of an expression is made from that of a field. The qualifier in front of a field takes no part in
    the value of the field. -/
inductive Term.Reads : Term → String → Prop
  | own {id : Nat} {owner name : String} {isStatic : Bool} {children : List Term} :
      Reads (.node id (.fieldRead owner name isStatic) children) (LibraryConstants.fieldKey owner name)
  | operand {node child : Term} {key : String}
      (hplain : ∀ owner name isStatic, node.kind ≠ .fieldRead owner name isStatic)
      (hmem : child ∈ node.operands) (hreads : Reads child key) : Reads node key

/-- Of what an invocation or an array gives a compiler makes no constant. -/
theorem compileTime_foldInvocation {library : LibraryConstants} {owner name : String} {arity : Nat}
    {arguments : List (Option Folded)} {folded : Folded}
    (h : foldInvocation library owner name arity arguments = some folded) : folded.compileTime = false := by
  unfold foldInvocation at h
  split at h
  · obtain ⟨value, -, rfl⟩ := Option.map_eq_some_iff.1 h
    rfl
  · split at h
    · obtain ⟨argument, -, h⟩ := Option.bind_eq_some_iff.1 h
      obtain ⟨value, -, h⟩ := Option.bind_eq_some_iff.1 h
      rw [← Option.some.inj h]
    · cases h

theorem compileTime_foldArrayLength {array : Option Term} {folded : Folded}
    (h : foldArrayLength array = some folded) : folded.compileTime = false := by
  unfold foldArrayLength at h
  split at h
  · split at h
    · rw [← Option.some.inj h]
    · cases h
  · cases h

theorem compileTime_of_foldConditional {values : List (Option Folded)} {folded : Folded}
    (h : foldConditional values = some folded) (hconstant : folded.compileTime = true) :
    ∀ value ∈ values, ∃ part, value = some part ∧ part.compileTime = true := by
  unfold foldConditional at h
  split at h
  · next condition yes no =>
    split at h
    · rw [← Option.some.inj h, Bool.and_eq_true, Bool.and_eq_true] at hconstant
      obtain ⟨⟨hcondition, hyes⟩, hno⟩ := hconstant
      simp [hcondition, hyes, hno]
    · cases h
  · cases h

/-- What a compile-time constant is made of are compile-time constants. -/
theorem compileTime_of_foldKind {context : FoldContext} {node : Term} {value : Term → Option Folded}
    (hplain : ∀ owner name isStatic, node.kind ≠ .fieldRead owner name isStatic) {folded : Folded}
    (hfold : foldKind context .empty node.kind node.children (node.operands.map value) = some folded)
    (hconstant : folded.compileTime = true) :
    ∀ operand ∈ node.operands, ∃ part, value operand = some part ∧ part.compileTime = true := by
  intro operand hoperand
  obtain ⟨index, hindex⟩ := List.getElem?_of_mem hoperand
  have hat : ((node.operands.map value)[index]?).join = value operand := by
    rw [List.getElem?_map, hindex]
    rfl
  have hlt : index < node.operands.length := (List.getElem?_eq_some_iff.1 hindex).1
  -- there are no more operands than the operator looks at, so each of them is one that it needs
  obtain ⟨id, kind, children⟩ := node
  rw [← hat]
  cases kind with
  | literal constant => exact absurd hlt (Nat.not_lt_zero index)
  | localRead name => exact absurd hlt (Nat.not_lt_zero index)
  | fieldRead owner name isStatic => exact absurd rfl (hplain owner name isStatic)
  | binary op =>
    obtain ⟨left, hleft, hfold⟩ := Option.bind_eq_some_iff.1 hfold
    obtain ⟨right, hright, hfold⟩ := Option.bind_eq_some_iff.1 hfold
    obtain ⟨result, -, hfold⟩ := Option.bind_eq_some_iff.1 hfold
    rw [← Option.some.inj hfold, Bool.and_eq_true] at hconstant
    have htwo : index < 2 := Nat.lt_of_lt_of_le hlt (List.length_take_le 2 children)
    obtain rfl | rfl : index = 0 ∨ index = 1 := by omega
    · exact ⟨left, hleft, hconstant.1⟩
    · exact ⟨right, hright, hconstant.2⟩
  | unary op =>
    replace hfold : foldKind context .empty (.unary op) children _ = some folded := hfold
    unfold foldKind at hfold
    dsimp only at hfold
    split at hfold
    · cases hfold
    · obtain ⟨part, hpart, hfold⟩ := Option.bind_eq_some_iff.1 hfold
      obtain ⟨result, -, hfold⟩ := Option.bind_eq_some_iff.1 hfold
      rw [← Option.some.inj hfold] at hconstant
      have hone : index < 1 := Nat.lt_of_lt_of_le hlt (List.length_take_le 1 children)
      obtain rfl : index = 0 := by omega
      exact ⟨part, hpart, hconstant⟩
  | cast type =>
    obtain ⟨part, hpart, hfold⟩ := Option.bind_eq_some_iff.1 hfold
    obtain ⟨result, -, hfold⟩ := Option.bind_eq_some_iff.1 hfold
    rw [← Option.some.inj hfold] at hconstant
    have hone : index < 1 := Nat.lt_of_lt_of_le hlt (List.length_take_le 1 children)
    obtain rfl : index = 0 := by omega
    exact ⟨part, hpart, hconstant⟩
  | conditional =>
    rw [hat]
    exact compileTime_of_foldConditional hfold hconstant _ (List.mem_map_of_mem hoperand)
  | invocation owner name arity hasReceiver =>
    rw [compileTime_foldInvocation hfold] at hconstant
    cases hconstant
  | arrayLength =>
    rw [compileTime_foldArrayLength hfold] at hconstant
    cases hconstant
  | assign target op =>
    obtain ⟨part, -, rfl⟩ := Option.map_eq_some_iff.1 hfold
    cases hconstant
  | _ => cases hfold

/-- A compile-time constant is made from fields whose values are known. -/
theorem Term.Reads.known {library : LibraryConstants} {known : Table String Constant} {node : Term}
    {key : String} (h : node.Reads key) (hlibrary : library.get? key = none) {folded : Folded}
    (hvalue : (node.visit ⟨library, known⟩ .evaluate .empty).value = some folded)
    (hconstant : folded.compileTime = true) : ∃ value, known.get? key = some value := by
  induction h generalizing folded with
  | @own id owner name isStatic children =>
    rw [value_evaluate] at hvalue
    replace hvalue : FoldContext.field? ⟨library, known⟩ owner name = some folded := hvalue
    unfold FoldContext.field? at hvalue
    dsimp only at hvalue
    rw [hlibrary] at hvalue
    dsimp only at hvalue
    split at hvalue
    · cases hvalue
    · obtain ⟨value, hvalue, -⟩ := Option.map_eq_some_iff.1 hvalue
      exact ⟨value, hvalue⟩
  | operand hplain hmem _ ih =>
    rw [value_evaluate] at hvalue
    split at hvalue
    · cases hvalue
    · obtain ⟨part, hpart, hconstant⟩ := compileTime_of_foldKind hplain hvalue hconstant _ hmem
      exact ih hlibrary hpart hconstant

/-! ## §4. Shapes. -/

theorem foldArrayLength_shape (array : Option Term) :
    foldArrayLength (array.map Term.shape) = foldArrayLength array := by
  cases array with
  | none => rfl
  | some array =>
    obtain ⟨id, kind, elements⟩ := array
    rw [Option.map_some, Term.shape_node]
    cases kind with
    | newArray type isInitialised =>
      cases isInitialised with
      | true =>
        rw [if_neg (by simp [NodeKind.isClass])]
        unfold foldArrayLength
        dsimp only
        rw [List.length_map]
      | false => rfl
    | _ => rfl

theorem foldKind_shape (context : FoldContext) (env : Env) (kind : NodeKind) (children : List Term)
    (values : List (Option Folded)) :
    foldKind context env kind (children.map Term.shape) values = foldKind context env kind children values := by
  cases kind with
  | arrayLength =>
    show foldArrayLength (children.map Term.shape).head? = foldArrayLength children.head?
    rw [List.head?_map, foldArrayLength_shape]
  | _ => rfl

/-- The value of an expression hangs on its shape alone. -/
theorem Term.value_shape (context : FoldContext) (node : Term) :
    ∀ env, (node.shape.visit context .evaluate env).value = (node.visit context .evaluate env).value := by
  induction node using induct with
  | hnode id kind children ih =>
    intro env
    cases hclass : kind.isClass with
    | true =>
      obtain ⟨name, rfl⟩ : ∃ name, kind = .classDecl name := by
        cases kind <;> first | exact ⟨_, rfl⟩ | cases hclass
      rw [value_evaluate, value_evaluate]
      rfl
    | false =>
      have hshape : (Term.node id kind children).shape = .node 0 kind (children.map shape) := by
        rw [shape_node, hclass]
        rfl
      have hoperands : (Term.node 0 kind (children.map shape)).operands
          = (Term.node id kind children).operands.map shape := by
        simp only [operands, Term.kind, Term.children, List.length_map, List.map_take]
      have hvalues : ((Term.node id kind children).operands.map shape).map
            (fun child => (child.visit context .evaluate env).value)
          = (Term.node id kind children).operands.map
            fun child => (child.visit context .evaluate env).value := by
        rw [List.map_map]
        refine List.map_congr_left fun child hchild => ?_
        exact ih child (List.mem_of_mem_take hchild) env
      rw [hshape, value_evaluate, value_evaluate, hoperands, hvalues]
      show (if kind.isStatement then none else foldKind context env kind (children.map shape) _) = _
      rw [foldKind_shape]
      rfl

end PatchPresence
