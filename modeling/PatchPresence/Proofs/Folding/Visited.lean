/-
  PatchPresence.Proofs.Folding.Visited — the nodes that a visit comes to.

  A visit leads from a node to some of its children, in order, and wants something from each of them. A station
  is a node with what is wanted from it and what is known there. Every record is made at a station, and what is
  known of a variable at one station was known at the start or was stored at another.

  Main results:
    * `Term.Within.exists_leadsTo` — a record about a part is made at the station of that part.
    * `Station.meets_of_leadsTo` — what every store keeps true of a variable is true of it at every station.
-/
import PatchPresence.Proofs.Folding.Faithful
import PatchPresence.Proofs.Source.Nesting

namespace PatchPresence

/-! ## §1. Stations. -/

/-- A node that is visited, with what is wanted from it and what is known there. -/
structure Station where
  mode : Mode
  env : Env
  node : Term

namespace Station

variable {context : FoldContext}

/-- What the visit of the node yields. -/
def visit (context : FoldContext) (station : Station) : Visit :=
  station.node.visit context station.mode station.env

/-- What the visit of the node yields of its children. -/
def parts (context : FoldContext) (station : Station) : Visits :=
  station.node.visitParts context station.mode station.env

/-- The stations of nodes that are visited in order. -/
inductive Turn (context : FoldContext) : Discipline → Nat → Env → List Term → Station → Prop
  | first {discipline : Discipline} {count : Nat} {env : Env} {node : Term} {rest : List Term} :
      Turn context discipline (count + 1) env (node :: rest) ⟨discipline.mode node.kind, env, node⟩
  | later {discipline : Discipline} {count : Nat} {env : Env} {node : Term} {rest : List Term}
      {station : Station}
      (h : Turn context discipline.next count
        (discipline.after node env (node.visit context (discipline.mode node.kind) env).env) rest station) :
      Turn context discipline (count + 1) env (node :: rest) station

/-- One station is that of a child of the other. -/
def Child (context : FoldContext) (station child : Station) : Prop :=
  Turn context (station.node.plan station.mode station.env).discipline
    (station.node.visitCount station.mode station.env) (station.node.plan station.mode station.env).start
    station.node.children child

/-- The visit of one station comes to the other. -/
inductive LeadsTo (context : FoldContext) : Station → Station → Prop
  | self {station : Station} : LeadsTo context station station
  | child {station child last : Station} (hchild : station.Child context child)
      (h : LeadsTo context child last) : LeadsTo context station last

theorem Turn.mem {discipline : Discipline} {count : Nat} {env : Env} {nodes : List Term} {station : Station}
    (h : Turn context discipline count env nodes station) : station.node ∈ nodes := by
  induction h with
  | first => exact List.mem_cons_self
  | later _ ih => exact List.mem_cons_of_mem _ ih

/-- Nodes that follow change nothing for those in front of them. -/
theorem Turn.append {discipline : Discipline} {count : Nat} {env : Env} {nodes : List Term} {station : Station}
    (h : Turn context discipline count env nodes station) (more : Nat) (others : List Term) :
    Turn context discipline (count + more) env (nodes ++ others) station := by
  induction h with
  | first =>
    rw [List.cons_append, Nat.add_right_comm]
    exact .first
  | later _ ih =>
    rw [List.cons_append, Nat.add_right_comm]
    exact .later ih

/-- Nodes that run in turn start where those in front of them end. -/
theorem Turn.behind {mode : Mode} {count : Nat} {env : Env} {front nodes : List Term} {station : Station}
    (h : Turn context (.sequence mode) count (visitAll context (.sequence mode) front.length env front).env
      nodes station) :
    Turn context (.sequence mode) (front.length + count) env (front ++ nodes) station := by
  induction front generalizing env with
  | nil =>
    rw [List.length_nil, visitAll] at h
    rwa [List.nil_append, List.length_nil, Nat.zero_add]
  | cons node front ih =>
    rw [List.length_cons, visitAll] at h
    rw [List.cons_append, List.length_cons, Nat.add_right_comm]
    exact .later (ih h)

namespace LeadsTo

variable {station middle last : Station}

theorem trans (h : LeadsTo context station middle) (h' : LeadsTo context middle last) :
    LeadsTo context station last := by
  induction h with
  | self => exact h'
  | child hchild _ ih => exact .child hchild (ih h')

theorem within (h : LeadsTo context station last) : last.node.Within station.node := by
  induction h with
  | self => exact .self
  | @child station child last hchild _ ih =>
    obtain ⟨mode, env, node⟩ := station
    cases node with
    | node => exact .deeper hchild.mem ih

/-- The last step leads from a node to its child. -/
theorem cases_last (h : LeadsTo context station last) :
    last = station ∨ ∃ owner, LeadsTo context station owner ∧ owner.Child context last := by
  induction h with
  | self => exact .inl rfl
  | @child station child last hchild _ ih =>
    rcases ih with rfl | ⟨owner, howner, hlast⟩
    · exact .inr ⟨station, .self, hchild⟩
    · exact .inr ⟨owner, .child hchild howner, hlast⟩

end LeadsTo

end Station

namespace Term

mutual

/-- What is wanted from the node at a position, and what is known there, when the visit of a term comes to it. -/
def stationAt? (context : FoldContext) (id : Nat) (mode : Mode) (env : Env) : Term → Option (Mode × Env)
  | .node own kind children =>
    if own = id then
      some (mode, env)
    else
      let plan := Plan.of (mode.role kind) env (Term.assigned (.node own kind children)) kind
      stationAtAll? context id plan.discipline (plan.count.getD children.length) plan.start children

/-- What is wanted from the node at a position, and what is known there, when at most `count` terms are visited. -/
def stationAtAll? (context : FoldContext) (id : Nat) (discipline : Discipline) (count : Nat) (env : Env) :
    List Term → Option (Mode × Env)
  | [] => none
  | term :: rest =>
    match count with
    | 0 => none
    | count + 1 =>
      (term.stationAt? context id (discipline.mode term.kind) env).or
        (stationAtAll? context id discipline.next count
          (discipline.after term env (term.visit context (discipline.mode term.kind) env).env) rest)

end

/-- A block and an expression statement run their children in turn, whatever is wanted from them. -/
theorem plan_of_block {node : Term} (h : node.kind = .block ∨ node.kind = .exprStmt) (mode : Mode) (env : Env) :
    node.plan mode env = ⟨.sequence .execute, none, env⟩ := by
  unfold plan
  rcases h with h | h
  · rw [h]
    cases mode <;> rfl
  · rw [h]
    cases mode <;> rfl

variable {context : FoldContext} {id : Nat}

theorem exists_turn_of_stationAtAll? {children : List Term} {discipline : Discipline} {count : Nat} {env : Env}
    {found : Mode × Env} (h : stationAtAll? context id discipline count env children = some found) :
    ∃ station, Station.Turn context discipline count env children station
      ∧ station.node.stationAt? context id station.mode station.env = some found := by
  induction children generalizing discipline count env with
  | nil =>
    rw [stationAtAll?] at h
    cases h
  | cons child rest ih =>
    cases count with
    | zero =>
      rw [stationAtAll?] at h
      cases h
    | succ count =>
      rw [stationAtAll?] at h
      rcases Option.or_eq_some_iff.1 h with hfirst | ⟨-, hothers⟩
      · exact ⟨_, .first, hfirst⟩
      · obtain ⟨station, hturn, hstation⟩ := ih hothers
        exact ⟨station, .later hturn, hstation⟩

theorem exists_leadsTo_of_stationAt? (term : Term) :
    ∀ mode env found, term.stationAt? context id mode env = some found →
      ∃ node, node.id = id ∧ Station.LeadsTo context ⟨mode, env, term⟩ ⟨found.1, found.2, node⟩ := by
  induction term using induct with
  | hnode own kind children ih =>
    intro mode env found h
    rw [stationAt?] at h
    split at h
    · next heq =>
      obtain rfl := Option.some.inj h
      exact ⟨.node own kind children, heq, .self⟩
    · obtain ⟨station, hturn, hstation⟩ := exists_turn_of_stationAtAll? h
      obtain ⟨node, hnode, hlead⟩ := ih station.node hturn.mem _ _ found hstation
      exact ⟨node, hnode, .child hturn hlead⟩

end Term

/-! ## §2. Records. -/

namespace Station

variable {context : FoldContext}

theorem Turn.mem_records {discipline : Discipline} {count : Nat} {env : Env} {nodes : List Term}
    {station : Station} (h : Turn context discipline count env nodes station) :
    ∀ record ∈ (station.visit context).records,
      record ∈ (visitAll context discipline count env nodes).records := by
  induction h with
  | first =>
    intro record hrecord
    rw [visitAll]
    exact List.mem_append_left _ hrecord
  | later _ ih =>
    intro record hrecord
    rw [visitAll]
    exact List.mem_append_right _ (ih record hrecord)

/-- What is on record at a station is on record wherever the visit comes from. -/
theorem LeadsTo.mem_records {station last : Station} (h : LeadsTo context station last) :
    ∀ record ∈ (last.visit context).records, record ∈ (station.visit context).records := by
  induction h with
  | self => exact fun _ hrecord => hrecord
  | child hchild _ ih =>
    exact fun record hrecord => Term.mem_records_visit (hchild.mem_records record (ih record hrecord))

theorem exists_turn_of_record {discipline : Discipline} {count : Nat} {env : Env} {nodes : List Term}
    {record : Nat × Option Folded}
    (h : record ∈ (visitAll context discipline count env nodes).records) :
    ∃ station, Turn context discipline count env nodes station ∧ record ∈ (station.visit context).records := by
  induction nodes generalizing discipline count env with
  | nil =>
    rw [visitAll] at h
    cases h
  | cons node rest ih =>
    cases count with
    | zero =>
      rw [visitAll] at h
      cases h
    | succ count =>
      rw [visitAll] at h
      rcases List.mem_append.1 h with hfirst | hothers
      · exact ⟨_, .first, hfirst⟩
      · obtain ⟨station, hturn, hrecord⟩ := ih hothers
        exact ⟨station, .later hturn, hrecord⟩

/-- The record that a station adds to those of its children. -/
def Adds (context : FoldContext) (station : Station) (result : Option Folded) : Prop :=
  (station.visit context).records = (station.parts context).records ++ [(station.node.id, result)]

/-- Every record is added at a station. -/
theorem exists_adds_of_record (node : Term) :
    ∀ mode env, ∀ record ∈ (node.visit context mode env).records,
      ∃ last, LeadsTo context ⟨mode, env, node⟩ last ∧ last.node.id = record.1
        ∧ last.Adds context record.2 := by
  induction node using Term.induct with
  | hnode id kind children ih =>
    intro mode env record hrecord
    have hbelow : record ∈ ((Term.node id kind children).visitParts context mode env).records →
        ∃ last, LeadsTo context ⟨mode, env, .node id kind children⟩ last ∧ last.node.id = record.1
          ∧ last.Adds context record.2 := by
      intro hparts
      obtain ⟨station, hturn, hvisited⟩ := exists_turn_of_record hparts
      obtain ⟨last, hlast, hadds⟩ := ih station.node hturn.mem station.mode station.env record hvisited
      exact ⟨last, .child hturn hlast, hadds⟩
    rcases Term.records_visit_cases context mode env (.node id kind children) with heq | ⟨result, heq⟩
    · exact hbelow (heq ▸ hrecord)
    · rw [heq] at hrecord
      rcases List.mem_append.1 hrecord with hparts | hown
      · exact hbelow hparts
      · obtain rfl := List.mem_singleton.1 hown
        exact ⟨_, .self, rfl, heq⟩

end Station

namespace Term

variable {context : FoldContext}

/-- Of several nodes only one is about a position. -/
theorem eq_of_mem_ids {nodes : List Term} (hnodup : (idsAll nodes).Nodup) {a b : Term} (ha : a ∈ nodes)
    (hb : b ∈ nodes) {id : Nat} (hida : id ∈ a.ids) (hidb : id ∈ b.ids) : a = b := by
  induction nodes with
  | nil => cases ha
  | cons node rest ih =>
    unfold idsAll at hnodup
    obtain ⟨-, hrest, hdisjoint⟩ := List.nodup_append.1 hnodup
    rcases List.mem_cons.1 ha with rfl | harest
    · rcases List.mem_cons.1 hb with rfl | hbrest
      · rfl
      · exact absurd rfl (hdisjoint _ hida _ (mem_idsAll.2 ⟨b, hbrest, hidb⟩))
    · rcases List.mem_cons.1 hb with rfl | hbrest
      · exact absurd rfl (hdisjoint _ hidb _ (mem_idsAll.2 ⟨a, harest, hida⟩))
      · exact ih hrest harest hbrest

theorem nodup_ids_of_mem {children : List Term} (h : (idsAll children).Nodup) {child : Term}
    (hchild : child ∈ children) : child.ids.Nodup := by
  rw [idsAll_eq_flatMap] at h
  exact (List.nodup_flatMap.1 h).1 child hchild

theorem nodup_idsAll_children {node : Term} (h : node.ids.Nodup) : (idsAll node.children).Nodup := by
  cases node with
  | node id kind children =>
    unfold ids at h
    exact (List.nodup_cons.1 h).2

theorem Within.nodup_ids {part whole : Term} (h : Within part whole) (hnodup : whole.ids.Nodup) :
    part.ids.Nodup := by
  induction h with
  | self => exact hnodup
  | deeper hmem _ ih => exact ih (nodup_ids_of_mem (nodup_idsAll_children hnodup) hmem)

/-- A record about what is below a node is one of its children. -/
theorem mem_records_visitParts {node : Term} (hnodup : node.ids.Nodup) {mode : Mode} {env : Env}
    {record : Nat × Option Folded} (hrecord : record ∈ (node.visit context mode env).records)
    (hid : record.1 ∈ idsAll node.children) : record ∈ (node.visitParts context mode env).records := by
  rcases records_visit_cases context mode env node with heq | ⟨result, heq⟩
  · rwa [heq] at hrecord
  · rw [heq] at hrecord
    rcases List.mem_append.1 hrecord with hbelow | hown
    · exact hbelow
    · rw [List.mem_singleton.1 hown] at hid
      cases node with
      | node id kind children =>
        unfold ids at hnodup
        exact absurd hid (List.nodup_cons.1 hnodup).1

/-- A record about one of several nodes is made at the station of that node. -/
theorem exists_turn_of_mem {nodes : List Term} {node : Term} (hnode : node ∈ nodes)
    (hnodup : (idsAll nodes).Nodup) {discipline : Discipline} {count : Nat} {env : Env}
    {record : Nat × Option Folded}
    (hrecord : record ∈ (visitAll context discipline count env nodes).records) (hid : record.1 ∈ node.ids) :
    ∃ mode start, Station.Turn context discipline count env nodes ⟨mode, start, node⟩
      ∧ record ∈ (node.visit context mode start).records := by
  obtain ⟨⟨mode, start, other⟩, hturn, hvisited⟩ := Station.exists_turn_of_record hrecord
  obtain rfl : other = node :=
    eq_of_mem_ids hnodup hturn.mem hnode (mem_ids_of_record context other mode start record hvisited) hid
  exact ⟨mode, start, hturn, hvisited⟩

/-- A record about a part of a node is made at the station of that part. -/
theorem Within.exists_leadsTo {part whole : Term} (h : Within part whole) :
    ∀ mode env, whole.ids.Nodup → ∀ record ∈ (whole.visit context mode env).records, record.1 ∈ part.ids →
      ∃ last start, Station.LeadsTo context ⟨mode, env, whole⟩ ⟨last, start, part⟩
        ∧ record ∈ (part.visit context last start).records := by
  induction h with
  | self =>
    intro mode env _ record hrecord _
    exact ⟨mode, env, .self, hrecord⟩
  | @deeper child id kind children hmem hwithin ih =>
    intro mode env hnodup record hrecord hid
    have hchildren : (idsAll children).Nodup := nodup_idsAll_children hnodup
    have hchild : record.1 ∈ child.ids := hwithin.ids_subset _ hid
    have hparts : record ∈ ((Term.node id kind children).visitParts context mode env).records :=
      mem_records_visitParts hnodup hrecord (mem_idsAll.2 ⟨child, hmem, hchild⟩)
    obtain ⟨inner, start, hturn, hvisited⟩ := exists_turn_of_mem hmem hchildren hparts hchild
    obtain ⟨last, behind, hlast, hmade⟩ :=
      ih inner start (nodup_ids_of_mem hchildren hmem) record hvisited hid
    exact ⟨last, behind, .child hturn hlast, hmade⟩

/-- Children that run in turn are visited from where those in front of them end. -/
theorem mem_records_of_sequence {front behind : List Term} {node : Term}
    (hnodup : (idsAll (front ++ node :: behind)).Nodup) {mode : Mode} {env : Env}
    {record : Nat × Option Folded} (hid : record.1 ∈ node.ids)
    (hrecord : record ∈ (visitAll context (.sequence mode) (front ++ node :: behind).length env
      (front ++ node :: behind)).records) :
    record ∈ (node.visit context mode
      (visitAll context (.sequence mode) front.length env front).env).records := by
  rw [idsAll_append, idsAll] at hnodup
  obtain ⟨-, hback, hfront⟩ := List.nodup_append.1 hnodup
  obtain ⟨-, -, hbehind⟩ := List.nodup_append.1 hback
  -- what stands in front of the node or behind it has records about other positions
  rw [List.length_append, Execution.visitAll_append] at hrecord
  rcases List.mem_append.1 hrecord with hrecord | hrecord
  · have hother := mem_idsAll_of_record_visitAll (fun child _ => mem_ids_of_record context child) record hrecord
    exact absurd rfl (hfront _ hother _ (List.mem_append_left _ hid))
  · rw [List.length_cons, visitAll] at hrecord
    rcases List.mem_append.1 hrecord with hrecord | hrecord
    · exact hrecord
    · have hother := mem_idsAll_of_record_visitAll (fun child _ => mem_ids_of_record context child) record hrecord
      exact absurd rfl (hbehind _ hid _ hother)

end Term

/-! ## §3. What is known of a variable. -/

/-- What is known of a variable, if anything is, passes a test. -/
def Env.Meets (test : LocalValue → Prop) (name : String) (env : Env) : Prop :=
  ∀ known, env.get? name = some known → test known

namespace Env.Meets

variable {test : LocalValue → Prop} {name : String} {env before behind : Env}

theorem of_none (h : env.get? name = none) : env.Meets test name := by
  intro known hknown
  rw [h] at hknown
  cases hknown

theorem get?_eq_none (h : env.Meets (fun _ => False) name) : env.get? name = none :=
  Option.eq_none_iff_forall_ne_some.2 h

theorem forget (h : env.Meets test name) (names : List String) : (env.forget names).Meets test name := by
  intro known hknown
  rw [Env.get?_forget] at hknown
  split at hknown
  · cases hknown
  · exact h known hknown

/-- Where the visit of the children starts, no more is known. -/
theorem start (h : env.Meets test name) (role : Role) (assigned : List String) (kind : NodeKind) :
    (Plan.of role env assigned kind).start.Meets test name := by
  have hempty : Env.Meets test name .empty := of_none rfl
  cases role with
  | declaration => cases kind <;> exact hempty
  | condition => exact h
  | expression => cases kind <;> first | exact h | exact hempty
  | statement => cases kind <;> first | exact h | exact h.forget assigned

theorem after (discipline : Discipline) (child : Term) (hbefore : before.Meets test name)
    (hbehind : behind.Meets test name) : (discipline.after child before behind).Meets test name := by
  cases discipline with
  | each => exact hbefore
  | sequence => exact hbehind
  | operands => exact hbefore.forget _
  | branches leading carry =>
    unfold Discipline.after
    dsimp only
    split
    · exact hbehind
    · exact hbefore

end Env.Meets

namespace Station

variable {context : FoldContext} {test : LocalValue → Prop} {name : String}

/-- What a declaration or assignment makes known of its variable. -/
def stored? (context : FoldContext) (station : Station) : Option LocalValue :=
  let parts := station.parts context
  match station.node.kind with
  | .localDecl _ type isFinal =>
    ((parts.values[0]?).join.bind fun folded => Constant.coerce type folded.value).map (⟨·, isFinal⟩)
  | .assign target op => (assignedValue parts.env target op (parts.values[0]?).join).map (⟨·, false⟩)
  | _ => none

/-- A declaration or assignment that runs as a statement makes a value known of its variable. -/
structure Stores (context : FoldContext) (station : Station) (name : String) (known : LocalValue) : Prop where
  runs : station.mode ≠ .evaluate
  target : station.node.target? = some name
  stored : station.stored? context = some known

/-- Behind a statement, what is known of a variable was known in front of it, or behind its children, or was
    stored by the statement. -/
theorem meets_statementEnv {station : Station} (henv : station.env.Meets test name)
    (hparts : (station.parts context).env.Meets test name)
    (hstored : station.node.target? = some name → ∀ known, station.stored? context = some known → test known) :
    (statementEnv station.node.kind station.node.assigned station.env (station.parts context).env
      (station.parts context).values).Meets test name := by
  have hassign : ∀ (target : String) (isFinal : Bool) (value : Option Constant),
      (name = target → ∀ known, value.map (LocalValue.mk · isFinal) = some known → test known) →
      ((station.parts context).env.assign target isFinal value).Meets test name := by
    intro target isFinal value hvalue known hknown
    rw [Env.get?_assign] at hknown
    split at hknown
    · next heq => exact hvalue heq known hknown
    · exact hparts known hknown
  cases hkind : station.node.kind with
  | localDecl target type isFinal =>
    refine hassign target isFinal _ fun heq known hknown => hstored ?_ known ?_
    · simp only [Term.target?, hkind, heq]
    · simp only [stored?, hkind, hknown]
  | assign target op =>
    refine hassign target false _ fun heq known hknown => hstored ?_ known ?_
    · simp only [Term.target?, hkind, heq]
    · simp only [stored?, hkind, hknown]
  | loop | ifStmt | switch | switchCase | tryStmt | catchClause | synchronizedStmt => exact henv.forget _
  | _ => exact hparts

/-- Behind a node, what is known of a variable passes a test when that is so behind its children and of what the
    node stores. -/
theorem meets_env_visit {station : Station} (henv : station.env.Meets test name)
    (hparts : (station.parts context).env.Meets test name)
    (hstores : ∀ known, station.Stores context name known → test known) :
    (station.visit context).env.Meets test name := by
  unfold visit
  rw [Term.visit_eq]
  cases hrole : station.mode.role station.node.kind with
  -- only a statement hands on what its children left behind
  | declaration | condition =>
    unfold Visit.finish
    rw [hrole]
    exact henv
  | expression =>
    rw [Visit.env_finish_of_expression hrole]
    split
    · exact henv.forget _
    · exact henv
  | statement =>
    rw [Visit.env_finish_of_statement hrole]
    split
    · exact henv
    · next hmode =>
      exact meets_statementEnv henv hparts fun htarget known hknown => hstores known ⟨hmode, htarget, hknown⟩

theorem meets_visitAll {nodes : List Term} {discipline : Discipline} {count : Nat} {env : Env}
    (henv : env.Meets test name)
    (hvisit : ∀ station, Turn context discipline count env nodes station → station.env.Meets test name →
      (station.visit context).env.Meets test name) :
    (visitAll context discipline count env nodes).env.Meets test name
      ∧ ∀ station, Turn context discipline count env nodes station → station.env.Meets test name := by
  induction nodes generalizing discipline count env with
  | nil =>
    rw [visitAll]
    exact ⟨henv, fun station h => by cases h⟩
  | cons node rest ih =>
    cases count with
    | zero =>
      rw [visitAll]
      exact ⟨henv, fun station h => by cases h⟩
    | succ count =>
      have hfirst := hvisit _ .first henv
      obtain ⟨hend, hothers⟩ := ih (henv.after discipline node hfirst)
        fun station hturn => hvisit station (.later hturn)
      rw [visitAll]
      refine ⟨hend, fun station h => ?_⟩
      cases h with
      | first => exact henv
      | later h => exact hothers station h

/-- What every store keeps true of a variable is true of it at every station and behind the last. -/
theorem meets_of_leadsTo (node : Term) :
    ∀ mode env, env.Meets test name →
      (∀ station known, LeadsTo context ⟨mode, env, node⟩ station → station.env.Meets test name →
        station.Stores context name known → test known) →
      (node.visit context mode env).env.Meets test name
        ∧ ∀ station, LeadsTo context ⟨mode, env, node⟩ station → station.env.Meets test name := by
  induction node using Term.induct with
  | hnode id kind children ih =>
    intro mode env henv hstores
    have hchild : ∀ child, Child context ⟨mode, env, .node id kind children⟩ child →
        child.env.Meets test name → (child.visit context).env.Meets test name
          ∧ ∀ station, LeadsTo context child station → station.env.Meets test name :=
      fun child hturn hmeets => ih child.node hturn.mem child.mode child.env hmeets
        fun station known hlead => hstores station known (.child hturn hlead)
    obtain ⟨hparts, hstations⟩ := meets_visitAll
      (henv.start (mode.role kind) (Term.node id kind children).assigned kind)
      fun child hturn hmeets => (hchild child hturn hmeets).1
    have hbehind : ((Station.mk mode env (.node id kind children)).visit context).env.Meets test name :=
      meets_env_visit henv hparts fun known => hstores _ known .self henv
    refine ⟨hbehind, fun station hlead => ?_⟩
    cases hlead with
    | self => exact henv
    | child hturn hlead => exact (hchild _ hturn (hstations _ hturn)).2 station hlead

/-- Of nodes that run in turn, what the stores up to and in one of them keep true of a variable is true of it
    wherever the visit of that one comes to. -/
theorem meets_in_sequence {mode : Mode} {env : Env} {front : List Term} {node : Term} (behind : List Term)
    (henv : env.Meets test name)
    (hstores : ∀ station last known, station.node ∈ front ++ [node] →
      Turn context (.sequence mode) (front ++ node :: behind).length env (front ++ node :: behind) station →
      LeadsTo context station last → last.env.Meets test name → last.Stores context name known → test known) :
    ∀ last, LeadsTo context ⟨mode, (visitAll context (.sequence mode) front.length env front).env, node⟩ last →
      last.env.Meets test name := by
  rw [List.length_append] at hstores
  have hstart : (visitAll context (.sequence mode) front.length env front).env.Meets test name := by
    refine (meets_visitAll henv fun station hturn hmeets => ?_).1
    refine (meets_of_leadsTo station.node _ _ hmeets fun last known hlead => ?_).1
    exact hstores station last known (List.mem_append_left _ hturn.mem) (hturn.append _ _) hlead
  refine (meets_of_leadsTo node _ _ hstart fun last known hlead => ?_).2
  exact hstores _ last known (List.mem_append_right _ List.mem_cons_self) (Turn.behind .first) hlead

/-- An expression adds what its kind makes of its parts. -/
theorem adds_of_expression {station : Station} (hrole : station.mode.role station.node.kind = .expression) :
    station.Adds context (foldKind context station.env station.node.kind station.node.children
      (station.parts context).values) := by
  unfold Adds visit
  rw [Term.visit_eq]
  unfold Visit.finish
  rw [hrole]
  rfl

theorem Adds.eq {station : Station} {result other : Option Folded} (h : station.Adds context result)
    (h' : station.Adds context other) : result = other := by
  unfold Adds at h h'
  rw [h] at h'
  simpa using h'

/-- At a read of a variable the value on record is the one that is known. -/
theorem Adds.known_of_localRead {station : Station} {result : Option Folded}
    (h : station.Adds context result) (hkind : station.node.kind = .localRead name) :
    result = (station.env.get? name).map fun known => ⟨known.value, known.isFinal⟩ := by
  have hrole : station.mode.role station.node.kind = .expression := by
    rw [hkind]
    cases station.mode <;> rfl
  rw [h.eq (adds_of_expression hrole), hkind]
  rfl

end Station

/-! ## §4. Trees. -/

namespace SyntaxTree

variable {tree : SyntaxTree} {library : LibraryConstants}

/-- A node of the tree is visited, with what is wanted from it and what is known there. -/
def Visited (tree : SyntaxTree) (library : LibraryConstants) (station : Station) : Prop :=
  ∃ root ∈ tree.forest, Station.LeadsTo (tree.foldContext library) ⟨.declare, .empty, root⟩ station

theorem Visited.leadsTo {station last : Station} (h : tree.Visited library station)
    (hlast : Station.LeadsTo (tree.foldContext library) station last) : tree.Visited library last := by
  obtain ⟨root, hroot, hlead⟩ := h
  exact ⟨root, hroot, hlead.trans hlast⟩

/-- What is wanted from the node at a position, and what is known there, when the tree is folded. -/
def stationAt? (tree : SyntaxTree) (library : LibraryConstants) (id : Nat) : Option (Mode × Env) :=
  tree.forest.findSome? fun root => root.stationAt? (tree.foldContext library) id .declare .empty

theorem exists_visited_of_stationAt? {id : Nat} {mode : Mode} {env : Env}
    (h : tree.stationAt? library id = some (mode, env)) :
    ∃ node, node.id = id ∧ tree.Visited library ⟨mode, env, node⟩ := by
  obtain ⟨root, hroot, hstation⟩ := List.exists_of_findSome?_eq_some h
  obtain ⟨node, hnode, hlead⟩ := root.exists_leadsTo_of_stationAt? _ _ _ hstation
  exact ⟨node, hnode, root, hroot, hlead⟩

/-- The declaration or assignment at a position makes a constant known of a variable. -/
def Stores (tree : SyntaxTree) (library : LibraryConstants) (id : Nat) (name : String) (value : Constant) :
    Prop :=
  ∃ station known, tree.Visited library station ∧ station.node.id = id
    ∧ station.Stores (tree.foldContext library) name known ∧ known.value = value

/-- What is on record at a station is what is found for the nodes there. -/
theorem Visited.get?_of_record (hvalid : tree.validate = .ok ()) {station : Station}
    (h : tree.Visited library station) {id : Nat} {result : Option Folded}
    (hrecord : (id, result) ∈ (station.visit (tree.foldContext library)).records) :
    (tree.propagate library).values.get? id = some result := by
  obtain ⟨root, hroot, hlead⟩ := h
  rw [propagate_eq_iff hvalid, records_visitAll_each]
  exact List.mem_flatMap.2 ⟨root, hroot, hlead.mem_records _ hrecord⟩

theorem nodup_ids_of_term? (hvalid : tree.validate = .ok ()) {id : Nat} {node : Term}
    (hnode : tree.term? id = some node) : node.ids.Nodup := by
  obtain ⟨root, hroot, hwithin⟩ := (validate_eq_ok_iff.1 hvalid).exists_within_forest hnode
  exact hwithin.nodup_ids (Term.nodup_ids_of_mem (tree.nodup_ids_forest hvalid) hroot)

/-- What is found for a node was put on record when a node above it was visited. -/
theorem exists_visited_of_get? (hvalid : tree.validate = .ok ()) {top : Nat} {node : Term}
    (hnode : tree.term? top = some node) {id : Nat} (hid : id ∈ node.ids) {result : Option Folded}
    (hget : (tree.propagate library).values.get? id = some result) :
    ∃ mode env, tree.Visited library ⟨mode, env, node⟩ ∧ node.ids.Nodup
      ∧ (id, result) ∈ (node.visit (tree.foldContext library) mode env).records := by
  have hnodup := tree.nodup_ids_forest hvalid
  obtain ⟨root, hroot, hwithin⟩ := (validate_eq_ok_iff.1 hvalid).exists_within_forest hnode
  have hrootNodup : root.ids.Nodup := Term.nodup_ids_of_mem hnodup hroot
  rw [propagate_eq_iff hvalid, records_visitAll_each] at hget
  obtain ⟨other, hother, hrecord⟩ := List.mem_flatMap.1 hget
  obtain rfl : other = root := Term.eq_of_mem_ids hnodup hother hroot
    (Term.mem_ids_of_record _ other _ _ _ hrecord) (hwithin.ids_subset id hid)
  obtain ⟨mode, env, hlead, hmade⟩ := hwithin.exists_leadsTo .declare .empty hrootNodup _ hrecord hid
  exact ⟨mode, env, ⟨other, hroot, hlead⟩, hwithin.nodup_ids hrootNodup, hmade⟩

theorem get?_of_value? {id : Nat} {value : Constant} (h : (tree.propagate library).value? id = some value) :
    ∃ folded, (tree.propagate library).values.get? id = some (some folded) ∧ folded.value = value := by
  obtain ⟨folded, hfolded, hvalue⟩ := Option.map_eq_some_iff.1 h
  exact ⟨folded, by simpa [Option.join_eq_some_iff] using hfolded, hvalue⟩

/-- The view of a part of a tree is the view of the node at its position. -/
theorem Visited.term? (hforest : tree.IsForest) {station : Station} (h : tree.Visited library station) :
    tree.term? station.node.id = some station.node := by
  obtain ⟨root, hroot, hlead⟩ := h
  obtain ⟨top, htop, hview⟩ := List.mem_flatMap.1 hroot
  rw [← toList_term? (hforest.lt_of_root htop), Option.mem_toList] at hview
  exact (hforest.below_of_within hlead.within hview).2

/-- The constant that is found for a read is known of the variable where the read is visited. -/
theorem exists_known_of_record (hforest : tree.IsForest) {station : Station}
    (h : tree.Visited library station) {id : Nat} {folded : Folded}
    (hrecord : (id, some folded) ∈ (station.visit (tree.foldContext library)).records) {name : String}
    (hread : tree.kind? id = some (.localRead name)) :
    ∃ last known, Station.LeadsTo (tree.foldContext library) station last
      ∧ last.env.get? name = some known ∧ known.value = folded.value := by
  obtain ⟨last, hlead, hlast, hadds⟩ := Station.exists_adds_of_record station.node _ _ _ hrecord
  have hkind := (hforest.of_term? ((h.leadsTo hlead).term? hforest)).2.1
  rw [hlast, hread] at hkind
  obtain ⟨known, hknown, rfl⟩ :=
    Option.map_eq_some_iff.1 (hadds.known_of_localRead (Option.some.inj hkind).symm).symm
  exact ⟨last, known, hlead, hknown, rfl⟩

/-- Children that run in turn are visited when their parent is. -/
theorem Visited.turn {mode inner : Mode} {env : Env} {start : Env → Env} {node : Term}
    (h : tree.Visited library ⟨mode, env, node⟩)
    (hplan : ∀ mode env, node.plan mode env = ⟨.sequence inner, none, start env⟩) {front back : List Term}
    (hchildren : node.children = front ++ back) {station : Station}
    (hturn : Station.Turn (tree.foldContext library) (.sequence inner) back.length
      (visitAll (tree.foldContext library) (.sequence inner) front.length (start env) front).env back station) :
    tree.Visited library station := by
  refine h.leadsTo (.child ?_ .self)
  unfold Station.Child Term.visitCount
  dsimp only
  rw [hplan, hchildren]
  dsimp only [Option.getD_none]
  rw [List.length_append]
  exact hturn.behind

/-- The constant that is found for a read in one of several children that run in turn is known of the variable where
    the visit of that child comes to. -/
theorem exists_known_of_value? (hvalid : tree.validate = .ok ()) {top id : Nat} {node part : Term}
    (hnode : tree.term? top = some node) {front behind : List Term}
    (hchildren : node.children = front ++ part :: behind) {inner : Mode} {start : Env → Env}
    (hplan : ∀ mode env, node.plan mode env = ⟨.sequence inner, none, start env⟩) (hid : id ∈ part.ids)
    {name : String} (hread : tree.kind? id = some (.localRead name)) {value : Constant}
    (hvalue : (tree.propagate library).value? id = some value) :
    ∃ mode env last known, tree.Visited library ⟨mode, env, node⟩
      ∧ Station.LeadsTo (tree.foldContext library)
          ⟨inner, (visitAll (tree.foldContext library) (.sequence inner) front.length (start env) front).env,
            part⟩ last
      ∧ last.env.get? name = some known ∧ known.value = value := by
  obtain ⟨folded, hget, rfl⟩ := get?_of_value? hvalue
  have hbelow : id ∈ Term.idsAll node.children := Term.mem_idsAll.2 ⟨part, by simp [hchildren], hid⟩
  obtain ⟨mode, env, hvisited, hnodup, hrecord⟩ :=
    exists_visited_of_get? hvalid hnode (Term.mem_ids_of_mem_children hbelow) hget
  have hmade := Term.mem_records_visitParts hnodup hrecord hbelow
  unfold Term.visitParts Term.visitCount at hmade
  rw [hplan, hchildren] at hmade
  have hown := Term.mem_records_of_sequence (hchildren ▸ Term.nodup_idsAll_children hnodup) hid hmade
  obtain ⟨last, known, hlead, hknown, hfound⟩ := exists_known_of_record (validate_eq_ok_iff.1 hvalid)
    (hvisited.turn hplan hchildren .first) hown hread
  exact ⟨mode, env, last, known, hvisited, hlead, hknown, hfound⟩

/-- Among children that run in turn, what is true of a variable behind some of them, and is kept true by the stores
    in those up to another one, is true of the constants that reads of the variable have in that one. -/
theorem meets_of_value? (hvalid : tree.validate = .ok ()) {top part : Nat} {node : Term}
    (hnode : tree.term? top = some node) {before front behind : List Nat}
    (hchildren : tree.children top = before ++ (front ++ part :: behind)) {inner : Mode} {start : Env → Env}
    (hplan : ∀ mode env, node.plan mode env = ⟨.sequence inner, none, start env⟩)
    {test : LocalValue → Prop} {name : String}
    (hstart : ∀ env, (visitAll (tree.foldContext library) (.sequence inner)
      (before.filterMap tree.term?).length (start env) (before.filterMap tree.term?)).env.Meets test name)
    (hstores : ∀ child ∈ front ++ [part], ∀ station known, tree.Visited library station →
      station.node.id ∈ tree.descendants child → station.env.Meets test name →
      station.Stores (tree.foldContext library) name known → test known) :
    ∀ id ∈ tree.descendants part, tree.kind? id = some (.localRead name) →
      ∀ value, (tree.propagate library).value? id = some value → ∃ known, test known ∧ known.value = value := by
  intro id hid hread value hvalue
  have hforest : tree.IsForest := validate_eq_ok_iff.1 hvalid
  have hpartLt : part < tree.size := hforest.lt_of_child (by simp [hchildren] : part ∈ tree.children top)
  obtain ⟨last, hlast⟩ := hforest.exists_term? hpartLt
  have hidLast : id ∈ last.ids := hforest.mem_ids_term? ((hforest.mem_descendants_iff hpartLt id).1 hid) hlast
  have hparts : node.children = before.filterMap tree.term?
      ++ (front.filterMap tree.term? ++ last :: behind.filterMap tree.term?) := by
    rw [(hforest.of_term? hnode).2.2, hchildren, List.filterMap_append, List.filterMap_append,
      List.filterMap_cons_some hlast]
  obtain ⟨mode, env, read, known, hvisited, hlead, hknown, hfound⟩ := exists_known_of_value? hvalid hnode
    (hparts.trans (List.append_assoc ..).symm) hplan hidLast hread hvalue
  rw [List.length_append, Execution.visitAll_append] at hlead
  refine ⟨known, ?_, hfound⟩
  have hmeets : read.env.Meets test name := by
    refine Station.meets_in_sequence (behind.filterMap tree.term?) (hstart env)
      (fun station store stored hmem hturn hlead => ?_) read hlead
    obtain ⟨child, hchild, hview⟩ : ∃ child ∈ front ++ [part], tree.term? child = some station.node := by
      have hmem' : station.node ∈ (front ++ [part]).filterMap tree.term? := by
        rwa [List.filterMap_append, List.filterMap_cons_some hlast, List.filterMap_nil]
      exact List.mem_filterMap.1 hmem'
    exact hstores child hchild store stored ((hvisited.turn hplan hparts hturn).leadsTo hlead)
      ((hforest.mem_descendants_iff (lt_of_term? hview) _).2 (hforest.below_of_within hlead.within hview).1)
  exact hmeets known hknown

end SyntaxTree

end PatchPresence
