/-
  PatchPresence.Proofs.Folding.Records — which nodes the records of a visit are about.

  A node that is visited is visited once, so a tree in which no position stands twice has at most one record
  for each. What is not visited has none.

  Main results:
    * `Term.nodup_records` — no node has two records.
    * `Term.placed_of_within` — a node below a visited one is visited with its own environment, or nothing
      at or below it has a record.
-/
import PatchPresence.Proofs.Folding.Audit

namespace PatchPresence

/-! ## §1. What a visit makes of the children. -/

namespace Term

theorem sound_audit_iff {runtime : Runtime} {mode : Mode} {env : Env} {stale : List String} {node : Term} :
    (node.audit runtime mode env stale).sound = true
      ↔ node.isCurrent runtime mode env stale (node.auditParts runtime mode env stale).matched = true
        ∧ (node.auditParts runtime mode env stale).sound = true := by
  rw [audit_eq]
  exact Bool.and_eq_true_iff

theorem stale_audit_eq (runtime : Runtime) (mode : Mode) (env : Env) (stale : List String) (node : Term) :
    (node.audit runtime mode env stale).stale
      = node.staleBehind mode stale (node.auditParts runtime mode env stale).stale := by
  rw [audit_eq]

/-- A visit adds at most the record of the node itself to those of its children. -/
theorem records_visit_cases (context : FoldContext) (mode : Mode) (env : Env) (node : Term) :
    (node.visit context mode env).records = (node.visitParts context mode env).records
      ∨ ∃ result, (node.visit context mode env).records
          = (node.visitParts context mode env).records ++ [(node.id, result)] := by
  rw [visit_eq]
  unfold Visit.finish
  split
  · exact .inl rfl
  · exact .inl rfl
  · dsimp only
    split
    · exact .inr ⟨_, rfl⟩
    · exact .inl rfl
  · exact .inr ⟨_, rfl⟩

theorem mem_records_visit {context : FoldContext} {mode : Mode} {env : Env} {node : Term}
    {record : Nat × Option Folded} (h : record ∈ (node.visitParts context mode env).records) :
    record ∈ (node.visit context mode env).records := by
  rcases records_visit_cases context mode env node with heq | ⟨result, heq⟩
  · rwa [heq]
  · rw [heq]
    exact List.mem_append_left _ h

/-- A value that is found is what the kind of the node makes of its parts. -/
theorem foldKind_of_value {context : FoldContext} {mode : Mode} {env : Env} {node : Term}
    {folded : Folded} (h : (node.visit context mode env).value = some folded) :
    foldKind context env node.kind node.children (node.visitParts context mode env).values
      = some folded := by
  rw [visit_eq] at h
  unfold Visit.finish at h
  split at h
  · cases h
  · cases h
  · dsimp only at h
    split at h <;> cases h
  · exact h

/-- The value of an expression is on record. -/
theorem visit_of_expression {context : FoldContext} {mode : Mode} {env : Env} {node : Term}
    (hrole : mode.role node.kind = .expression) :
    (node.visit context mode env).value
        = foldKind context env node.kind node.children (node.visitParts context mode env).values
      ∧ (node.id, (node.visit context mode env).value) ∈ (node.visit context mode env).records := by
  rw [visit_eq]
  unfold Visit.finish
  rw [hrole]
  exact ⟨rfl, List.mem_append_right _ List.mem_cons_self⟩

end Term

/-! ## §2. Positions on record. -/

namespace Term

theorem mem_idsAll_of_record_visitAll {context : FoldContext} {children : List Term}
    (ih : ∀ child ∈ children, ∀ mode env, ∀ record ∈ (child.visit context mode env).records,
      record.1 ∈ child.ids)
    {discipline : Discipline} {count : Nat} {env : Env} :
    ∀ record ∈ (visitAll context discipline count env children).records, record.1 ∈ idsAll children := by
  induction children generalizing discipline count env with
  | nil =>
    intro record hrecord
    rw [visitAll] at hrecord
    cases hrecord
  | cons child rest ihrest =>
    intro record hrecord
    unfold idsAll
    cases count with
    | zero =>
      rw [visitAll] at hrecord
      cases hrecord
    | succ count =>
      rw [visitAll] at hrecord
      rcases List.mem_append.1 hrecord with hfirst | hothers
      · exact List.mem_append_left _ (ih child List.mem_cons_self _ _ record hfirst)
      · exact List.mem_append_right _
          (ihrest (fun other hother => ih other (List.mem_cons_of_mem _ hother)) record hothers)

/-- Records are about nodes at or below the one visited. -/
theorem mem_ids_of_record (context : FoldContext) (term : Term) :
    ∀ mode env, ∀ record ∈ (term.visit context mode env).records, record.1 ∈ term.ids := by
  induction term using induct with
  | hnode id kind children ih =>
    intro mode env record hrecord
    have hparts : ∀ record ∈ ((Term.node id kind children).visitParts context mode env).records,
        record.1 ∈ idsAll children := mem_idsAll_of_record_visitAll ih
    unfold ids
    rcases records_visit_cases context mode env (.node id kind children) with heq | ⟨result, heq⟩
    · rw [heq] at hrecord
      exact List.mem_cons_of_mem _ (hparts record hrecord)
    · rw [heq] at hrecord
      rcases List.mem_append.1 hrecord with hbelow | hown
      · exact List.mem_cons_of_mem _ (hparts record hbelow)
      · rw [List.mem_singleton.1 hown]
        exact List.mem_cons_self

theorem nodup_records_visitAll {context : FoldContext} {children : List Term}
    (ih : ∀ child ∈ children, ∀ mode env, child.ids.Nodup →
      ((child.visit context mode env).records.map Prod.fst).Nodup)
    (hnodup : (idsAll children).Nodup) {discipline : Discipline} {count : Nat} {env : Env} :
    ((visitAll context discipline count env children).records.map Prod.fst).Nodup := by
  induction children generalizing discipline count env with
  | nil =>
    rw [visitAll]
    exact List.nodup_nil
  | cons child rest ihrest =>
    cases count with
    | zero =>
      rw [visitAll]
      exact List.nodup_nil
    | succ count =>
      unfold idsAll at hnodup
      obtain ⟨hchild, hrest, hdisjoint⟩ := List.nodup_append.1 hnodup
      rw [visitAll]
      dsimp only
      rw [List.map_append, List.nodup_append]
      refine ⟨ih child List.mem_cons_self _ _ hchild,
        ihrest (fun other hother => ih other (List.mem_cons_of_mem _ hother)) hrest, ?_⟩
      intro first hfirst second hsecond
      obtain ⟨record, hrecord, rfl⟩ := List.mem_map.1 hfirst
      obtain ⟨other, hother, rfl⟩ := List.mem_map.1 hsecond
      exact hdisjoint _ (mem_ids_of_record context child _ _ record hrecord) _
        (mem_idsAll_of_record_visitAll (fun child _ => mem_ids_of_record context child) other hother)

/-- No node has two records. -/
theorem nodup_records (context : FoldContext) (term : Term) :
    ∀ mode env, term.ids.Nodup → ((term.visit context mode env).records.map Prod.fst).Nodup := by
  induction term using induct with
  | hnode id kind children ih =>
    intro mode env hnodup
    unfold ids at hnodup
    obtain ⟨hid, hchildren⟩ := List.nodup_cons.1 hnodup
    have hparts : (((Term.node id kind children).visitParts context mode env).records.map
        Prod.fst).Nodup := nodup_records_visitAll ih hchildren
    rcases records_visit_cases context mode env (.node id kind children) with heq | ⟨result, heq⟩
    · rwa [heq]
    · rw [heq, List.map_append, List.nodup_append]
      refine ⟨hparts, by simp, ?_⟩
      intro first hfirst second hsecond
      obtain ⟨record, hrecord, rfl⟩ := List.mem_map.1 hfirst
      obtain rfl : second = id := List.mem_singleton.1 hsecond
      rintro rfl
      exact hid (mem_idsAll_of_record_visitAll (fun child _ => mem_ids_of_record context child)
        record hrecord)

/-! ## §3. Nodes below a visited one. -/

/-- A node was visited in a way that passes the audit, and its records are among those given, or these
    say nothing about it and what is below it. -/
def Placed (runtime : Runtime) (node : Term) (records : List (Nat × Option Folded)) : Prop :=
  (∃ types mode env stale, (node.audit { runtime with types } mode env stale).sound = true
      ∧ ∀ record ∈ (node.visit runtime.context mode env).records, record ∈ records)
    ∨ ∀ record ∈ records, record.1 ∉ node.ids

/-- A node stays placed when records about other nodes join. -/
theorem Placed.extend {runtime : Runtime} {node : Term} {records more : List (Nat × Option Folded)}
    (h : Placed runtime node records) (hsubset : ∀ record ∈ records, record ∈ more)
    (hothers : ∀ record ∈ more, record ∈ records ∨ record.1 ∉ node.ids) : Placed runtime node more := by
  rcases h with ⟨types, mode, env, stale, hsound, hrecords⟩ | hnone
  · exact .inl ⟨types, mode, env, stale, hsound, fun record hrecord => hsubset record (hrecords record hrecord)⟩
  · refine .inr fun record hrecord => ?_
    rcases hothers record hrecord with hold | hother
    · exact hnone record hold
    · exact hother

theorem placed_visitAll {runtime : Runtime} {part child : Term} {children : List Term}
    (hmem : child ∈ children) (hwithin : Within part child)
    (ih : ∀ mode env stale, child.ids.Nodup → (child.audit runtime mode env stale).sound = true →
      Placed runtime part (child.visit runtime.context mode env).records)
    (hnodup : (idsAll children).Nodup) {exposed : List Term → Term → List String}
    {discipline : Discipline} {count : Nat} {env : Env} {stale : List String} {earlier : List Term}
    (hsound : (auditAll runtime exposed discipline count env stale earlier children).sound = true) :
    Placed runtime part (visitAll runtime.context discipline count env children).records := by
  induction children generalizing discipline count env stale earlier with
  | nil => cases hmem
  | cons first rest ihrest =>
    cases count with
    | zero =>
      rw [visitAll]
      exact .inr fun record hrecord => by cases hrecord
    | succ count =>
      unfold idsAll at hnodup
      obtain ⟨hfirst, hrest, hdisjoint⟩ := List.nodup_append.1 hnodup
      rw [auditAll] at hsound
      dsimp only at hsound
      rw [Bool.and_eq_true] at hsound
      rw [visitAll]
      dsimp only
      -- records of the other children are about other positions
      rcases List.mem_cons.1 hmem with rfl | hmem
      · refine (ih _ _ _ hfirst hsound.1).extend (fun record => List.mem_append_left _) ?_
        intro record hrecord
        refine (List.mem_append.1 hrecord).imp_right fun hothers hpart => ?_
        have hother := mem_idsAll_of_record_visitAll (fun child _ => mem_ids_of_record runtime.context child)
          record hothers
        exact hdisjoint _ (hwithin.ids_subset _ hpart) _ hother rfl
      · refine (ihrest hmem hrest hsound.2).extend (fun record => List.mem_append_right _) ?_
        intro record hrecord
        refine (List.mem_append.1 hrecord).symm.imp_right fun hrecorded hpart => ?_
        have hother := mem_ids_of_record runtime.context first _ _ record hrecorded
        exact hdisjoint _ hother _ (mem_idsAll.2 ⟨child, hmem, hwithin.ids_subset _ hpart⟩) rfl

/-- A node below a visited one is visited too, or nothing at or below it has a record. -/
theorem placed_of_within {part whole : Term} (h : Within part whole) :
    ∀ runtime mode env stale, whole.ids.Nodup → (whole.audit runtime mode env stale).sound = true →
      Placed runtime part (whole.visit runtime.context mode env).records := by
  induction h with
  | self =>
    intro runtime mode env stale _ hsound
    exact .inl ⟨runtime.types, mode, env, stale, hsound, fun _ hrecord => hrecord⟩
  | @deeper child id kind children hmem hwithin ih =>
    -- below a body the types are other ones, and they are open in `Placed`
    intro runtime mode env stale hnodup hsound
    unfold ids at hnodup
    obtain ⟨hid, hchildren⟩ := List.nodup_cons.1 hnodup
    have hparts : Placed runtime part
        ((Term.node id kind children).visitParts runtime.context mode env).records :=
      placed_visitAll hmem hwithin (ih (runtime.within (.node id kind children))) hchildren
        (sound_audit_iff.1 hsound).2
    refine hparts.extend (fun record => mem_records_visit) fun record hrecord => ?_
    rcases records_visit_cases runtime.context mode env (.node id kind children) with heq | ⟨result, heq⟩
    · exact .inl (heq ▸ hrecord)
    · rw [heq] at hrecord
      refine (List.mem_append.1 hrecord).imp_right fun hown hpart => hid ?_
      rw [List.mem_singleton.1 hown] at hpart
      exact mem_idsAll.2 ⟨child, hmem, hwithin.ids_subset id hpart⟩

end Term

end PatchPresence
