/-
  PatchPresence.Proofs.Folding.Governing — which declaration gives a read of a variable its constant.

  A declaration governs its variable from where it stands until the variable may be assigned or declared anew. To say
  where that is, a walk follows one variable along the visit of a tree and carries the position of the declaration in
  force; it looks at no value. What a visit knows of a final variable is then the initial value of that declaration,
  so a read is marked as inlined just when a final declaration with a constant of its type governs it. Whether the
  initialiser is itself marked plays no part.

  Main results:
    * `SyntaxTree.Visited.tracks` — the walk and the visit agree, behind a node and at all that the visit comes to.
    * `SyntaxTree.isCompileTime_localRead_iff` — which reads of variables are marked as inlined.
    * `SyntaxTree.isCompileTime_finalCopy` — a marked read whose declaration copies a variable that is not final.
-/
import PatchPresence.Proofs.Folding.Assignments

namespace PatchPresence

/-! ## §1. The declaration in force. -/

/-- Where a walk comes to, each node with the declaration that governs a variable in front of it, and the declaration
    that governs the variable behind the walk. -/
structure Scoping where
  places : List (Nat × Option Nat)
  behind : Option Nat
deriving DecidableEq, Repr

namespace Scoping

/-- What may assign a variable ends the rule of its declaration. -/
def past (name : String) (assigned : List String) (governor : Option Nat) : Option Nat :=
  if name ∈ assigned then none else governor

/-- What governs a variable in front of the children of a node; nothing does in a new body. -/
def start (name : String) (role : Role) (kind : NodeKind) (assigned : List String) (before : Option Nat) :
    Option Nat :=
  match role, kind with
  | .declaration, _ => none
  | .expression, .lambda => none
  | .statement, .loop _ => past name assigned before
  | _, _ => before

/-- What governs a variable in front of the next child, from what does before and behind a child. -/
def after (name : String) (discipline : Discipline) (child : Term) (before behind : Option Nat) : Option Nat :=
  match discipline with
  | .each _ => before
  | .sequence _ => behind
  | .operands => past name child.assigned before
  | .branches leading carry => if carry && !Discipline.leads leading child.kind then behind else before

/-- What governs a variable behind a statement, from what does before it and behind its children. -/
def statement (name : String) (id : Nat) (kind : NodeKind) (assigned : List String) (before behind : Option Nat) :
    Option Nat :=
  match kind with
  | .localDecl target _ _ => if name = target then some id else behind
  | .assign target _ => if name = target then none else behind
  | .loop _ | .ifStmt | .switch | .switchCase _ | .tryStmt | .catchClause _ | .synchronizedStmt =>
    past name assigned before
  | _ => behind

/-- Puts together the walk through a node from the walk through its children. -/
def finish (name : String) (mode : Mode) (before : Option Nat) (assigned : List String) (id : Nat) (kind : NodeKind)
    (parts : Scoping) : Scoping where
  places := (id, before) :: parts.places
  behind :=
    match mode.role kind with
    | .declaration | .condition => before
    | .statement => if mode = .evaluate then before else statement name id kind assigned before parts.behind
    | .expression => if mode = .execute then past name assigned before else before

end Scoping

mutual

/-- Walks through a node, for one variable. -/
def Term.scoping (name : String) (mode : Mode) (before : Option Nat) : Term → Scoping
  | .node id kind children =>
    let assigned := Term.assigned (.node id kind children)
    let plan := Plan.of (mode.role kind) .empty assigned kind
    let parts := scopingAll name plan.discipline (plan.count.getD children.length)
      (Scoping.start name (mode.role kind) kind assigned before) children
    .finish name mode before assigned id kind parts

/-- Walks through at most `count` nodes in order. -/
def scopingAll (name : String) (discipline : Discipline) (count : Nat) (before : Option Nat) : List Term → Scoping
  | [] => ⟨[], before⟩
  | term :: rest =>
    match count with
    | 0 => ⟨[], before⟩
    | count + 1 =>
      let first := term.scoping name (discipline.mode term.kind) before
      let others := scopingAll name discipline.next count (Scoping.after name discipline term before first.behind) rest
      ⟨first.places ++ others.places, others.behind⟩

end

/-- How the children of a node are visited hangs on nothing that is known. -/
theorem Plan.of_eq_of_env (role : Role) (env : Env) (assigned : List String) (kind : NodeKind) :
    (Plan.of role env assigned kind).discipline = (Plan.of role .empty assigned kind).discipline
      ∧ (Plan.of role env assigned kind).count = (Plan.of role .empty assigned kind).count := by
  cases role with
  | declaration | condition => exact ⟨rfl, rfl⟩
  | statement | expression => cases kind <;> exact ⟨rfl, rfl⟩

/-- A visit comes to the node itself and to all that the visits of its children come to. -/
theorem Station.leadsTo_iff {context : FoldContext} {station last : Station} :
    LeadsTo context station last
      ↔ last = station ∨ ∃ child, station.Child context child ∧ LeadsTo context child last := by
  constructor
  · intro h
    cases h with
    | self => exact .inl rfl
    | child hchild h => exact .inr ⟨_, hchild, h⟩
  · rintro (rfl | ⟨child, hchild, h⟩)
    · exact .self
    · exact .child hchild h

namespace SyntaxTree

/-- A declaration of a variable is in force at a node that is visited. -/
def Governs (tree : SyntaxTree) (name : String) (declaration id : Nat) : Prop :=
  ∃ root ∈ tree.forest, (id, some declaration) ∈ (root.scoping name .declare none).places

instance (tree : SyntaxTree) (name : String) (declaration id : Nat) : Decidable (tree.Governs name declaration id) :=
  inferInstanceAs (Decidable (∃ root ∈ tree.forest, _))

/-- A final declaration of a variable gives it a constant: that of its initialiser, in the declared type. -/
def Fixes (tree : SyntaxTree) (library : LibraryConstants) (name : String) (declaration : Nat) (value : Constant) :
    Prop :=
  ∃ type initializer found, tree.kind? declaration = some (.localDecl name type true)
    ∧ (tree.children declaration).head? = some initializer
    ∧ (tree.propagate library).value? initializer = some found ∧ Constant.coerce type found = some value

/-- What is known of a variable as final is what the declaration in force gives it. -/
def Tracks (tree : SyntaxTree) (library : LibraryConstants) (name : String) (env : Env) (governor : Option Nat) :
    Prop :=
  ∀ value, env.get? name = some ⟨value, true⟩
    ↔ ∃ declaration, governor = some declaration ∧ tree.Fixes library name declaration value

/-! ## §2. Steps of the walk. -/

variable {tree : SyntaxTree} {library : LibraryConstants} {name : String}

namespace Tracks

variable {env before behind : Env} {governor first second : Option Nat}

theorem of_none (h : ∀ value, env.get? name ≠ some ⟨value, true⟩) : tree.Tracks library name env none :=
  fun value => iff_of_false (h value) nofun

theorem empty : tree.Tracks library name .empty none := of_none nofun

theorem forget (h : tree.Tracks library name env governor) (names : List String) :
    tree.Tracks library name (env.forget names) (Scoping.past name names governor) := by
  unfold Scoping.past
  split
  · next hmem =>
    refine of_none fun value => ?_
    rw [Env.get?_forget, if_pos hmem]
    nofun
  · next hmem =>
    intro value
    rw [Env.get?_forget, if_neg hmem]
    exact h value

/-- The two agree in front of the children of a node. -/
theorem start (h : tree.Tracks library name env governor) (role : Role) (assigned : List String) (kind : NodeKind) :
    tree.Tracks library name (Plan.of role env assigned kind).start
      (Scoping.start name role kind assigned governor) := by
  cases role with
  | declaration => cases kind <;> exact empty
  | condition => exact h
  | expression => cases kind <;> first | exact h | exact empty
  | statement => cases kind <;> first | exact h | exact h.forget assigned

/-- The two agree between the children of a node. -/
theorem after (discipline : Discipline) (child : Term) (hbefore : tree.Tracks library name before first)
    (hbehind : tree.Tracks library name behind second) :
    tree.Tracks library name (discipline.after child before behind)
      (Scoping.after name discipline child first second) := by
  cases discipline with
  | each => exact hbefore
  | sequence => exact hbehind
  | operands => exact hbefore.forget _
  | branches leading carry =>
    unfold Discipline.after Scoping.after
    dsimp only
    split
    · exact hbehind
    · exact hbefore

/-- The two agree behind a store when what it stores is final just as the new declaration in force says. -/
theorem assign (target : String) (isFinal : Bool) (value : Option Constant) {other : Option Nat}
    (h : tree.Tracks library name env governor)
    (hstored : name = target → ∀ constant, (isFinal = true ∧ value = some constant)
      ↔ ∃ declaration, other = some declaration ∧ tree.Fixes library name declaration constant) :
    tree.Tracks library name (env.assign target isFinal value) (if name = target then other else governor) := by
  intro constant
  rw [Env.get?_assign]
  split
  · next heq =>
    rw [← hstored heq constant, Option.map_eq_some_iff]
    constructor
    · rintro ⟨_, hvalue, hknown⟩
      obtain ⟨rfl, rfl⟩ := LocalValue.mk.inj hknown
      exact ⟨rfl, hvalue⟩
    · rintro ⟨rfl, hvalue⟩
      exact ⟨constant, hvalue, rfl⟩
  · exact h constant

end Tracks

/-- The first value among the children of a declaration or assignment is what is found for its operand. -/
theorem Visited.join_values_of_target (hvalid : tree.validate = .ok ()) {station : Station}
    (h : tree.Visited library station) (hmode : station.mode ≠ .evaluate) {target : String}
    (htarget : station.node.target? = some target) :
    ((station.parts (tree.foldContext library)).values[0]?).join.map Folded.value
      = (tree.children station.node.id).head?.bind (tree.propagate library).value? := by
  rw [h.bind_value?_operand hvalid htarget]
  unfold Station.parts
  rw [Term.visitParts_of_target htarget hmode]
  cases station.node.children with
  | nil =>
    rw [visitAll]
    rfl
  | cons view rest =>
    rw [Term.visitAll_one]
    rfl

/-- A declaration makes a constant known as final when it fixes its variable, and only then. -/
theorem Visited.fixes_iff (hvalid : tree.validate = .ok ()) {station : Station} (h : tree.Visited library station)
    (hmode : station.mode ≠ .evaluate) {type : String} {isFinal : Bool}
    (hkind : station.node.kind = .localDecl name type isFinal) (value : Constant) :
    (isFinal = true ∧ ((station.parts (tree.foldContext library)).values[0]?).join.bind
        (fun folded => Constant.coerce type folded.value) = some value)
      ↔ tree.Fixes library name station.node.id value := by
  have hforest : tree.IsForest := validate_eq_ok_iff.1 hvalid
  have hnode : tree.kind? station.node.id = some (.localDecl name type isFinal) := by
    rw [(hforest.of_term? (h.term? hforest)).2.1, hkind]
  have htarget : station.node.target? = some name := by rw [Term.target?, hkind]
  have hvalues := h.join_values_of_target hvalid hmode htarget
  -- what the visit stores, in terms of what is found for the initialiser
  have hbind : ((station.parts (tree.foldContext library)).values[0]?).join.bind
        (fun folded => Constant.coerce type folded.value)
      = ((tree.children station.node.id).head?.bind (tree.propagate library).value?).bind (Constant.coerce type) := by
    rw [← hvalues, Option.bind_map]
    rfl
  rw [hbind, Option.bind_eq_some_iff]
  constructor
  · rintro ⟨rfl, found, hfound, hcoerce⟩
    obtain ⟨initializer, hinitializer, hfound⟩ := Option.bind_eq_some_iff.1 hfound
    exact ⟨type, initializer, found, hnode, hinitializer, hfound, hcoerce⟩
  · rintro ⟨other, initializer, found, hother, hinitializer, hfound, hcoerce⟩
    rw [hnode] at hother
    cases hother
    exact ⟨rfl, found, by rw [hinitializer, Option.bind_some, hfound], hcoerce⟩

/-- The two agree behind a statement that is run. -/
theorem Visited.tracks_statementEnv (hvalid : tree.validate = .ok ()) {station : Station}
    (h : tree.Visited library station) (hmode : station.mode ≠ .evaluate) {before behind : Option Nat}
    (hbefore : tree.Tracks library name station.env before)
    (hbehind : tree.Tracks library name (station.parts (tree.foldContext library)).env behind) :
    tree.Tracks library name
      (statementEnv station.node.kind station.node.assigned station.env
        (station.parts (tree.foldContext library)).env (station.parts (tree.foldContext library)).values)
      (Scoping.statement name station.node.id station.node.kind station.node.assigned before behind) := by
  cases hkind : station.node.kind with
  | localDecl target type isFinal =>
    -- the only place where a declaration comes into force
    refine hbehind.assign target isFinal _ fun heq value => ?_
    subst heq
    simpa using h.fixes_iff hvalid hmode hkind value
  | assign target op => exact hbehind.assign target false _ fun _ _ => by simp
  | loop | ifStmt | switch | switchCase | tryStmt | catchClause | synchronizedStmt => exact hbefore.forget _
  | _ => exact hbehind

/-- The two agree behind a node when they do before it and behind its children. -/
theorem Visited.tracks_finish (hvalid : tree.validate = .ok ()) {station : Station}
    (h : tree.Visited library station) {before : Option Nat} {parts : Scoping}
    (hbefore : tree.Tracks library name station.env before)
    (hparts : tree.Tracks library name (station.parts (tree.foldContext library)).env parts.behind) :
    tree.Tracks library name (station.visit (tree.foldContext library)).env
      (Scoping.finish name station.mode before station.node.assigned station.node.id station.node.kind
        parts).behind := by
  unfold Station.visit
  rw [Term.visit_eq]
  cases hrole : station.mode.role station.node.kind with
  | declaration | condition =>
    unfold Visit.finish Scoping.finish
    rw [hrole]
    exact hbefore
  | expression =>
    rw [Visit.env_finish_of_expression hrole]
    unfold Scoping.finish
    rw [hrole]
    dsimp only
    split
    · exact hbefore.forget _
    · exact hbefore
  | statement =>
    rw [Visit.env_finish_of_statement hrole]
    unfold Scoping.finish
    rw [hrole]
    dsimp only
    split
    · exact hbefore
    · next hmode => exact h.tracks_statementEnv hvalid hmode hbefore hparts

/-! ## §3. Whole walks. -/

/-- The places of a walk are what a visit comes to, and the two agree at each of them. -/
structure Mirrors (tree : SyntaxTree) (library : LibraryConstants) (name : String) (reached : Station → Prop)
    (places : List (Nat × Option Nat)) : Prop where
  exists_place : ∀ station, reached station →
    ∃ governor, (station.node.id, governor) ∈ places ∧ tree.Tracks library name station.env governor
  exists_station : ∀ place ∈ places,
    ∃ station, reached station ∧ station.node.id = place.1 ∧ tree.Tracks library name station.env place.2

namespace Mirrors

variable {reached others whole : Station → Prop} {places more : List (Nat × Option Nat)}

theorem nil (h : ∀ station, ¬ reached station) : tree.Mirrors library name reached [] :=
  ⟨fun station hreached => absurd hreached (h station), nofun⟩

theorem singleton {station : Station} {governor : Option Nat} (h : tree.Tracks library name station.env governor) :
    tree.Mirrors library name (· = station) [(station.node.id, governor)] := by
  refine ⟨?_, ?_⟩
  · rintro _ rfl
    exact ⟨governor, List.mem_cons_self, h⟩
  · intro place hplace
    obtain rfl := List.mem_singleton.1 hplace
    exact ⟨station, rfl, rfl, h⟩

theorem append (h : tree.Mirrors library name reached places) (hmore : tree.Mirrors library name others more)
    (hwhole : ∀ station, whole station ↔ reached station ∨ others station) :
    tree.Mirrors library name whole (places ++ more) := by
  refine ⟨fun station hstation => ?_, fun place hplace => ?_⟩
  · rcases (hwhole station).1 hstation with hstation | hstation
    · obtain ⟨governor, hmem, htracks⟩ := h.exists_place station hstation
      exact ⟨governor, List.mem_append_left _ hmem, htracks⟩
    · obtain ⟨governor, hmem, htracks⟩ := hmore.exists_place station hstation
      exact ⟨governor, List.mem_append_right _ hmem, htracks⟩
  · rcases List.mem_append.1 hplace with hplace | hplace
    · obtain ⟨station, hstation, hagree⟩ := h.exists_station place hplace
      exact ⟨station, (hwhole station).2 (.inl hstation), hagree⟩
    · obtain ⟨station, hstation, hagree⟩ := hmore.exists_station place hplace
      exact ⟨station, (hwhole station).2 (.inr hstation), hagree⟩

end Mirrors

theorem tracks_scopingAll {nodes : List Term} {discipline : Discipline} {count : Nat} {env : Env}
    {before : Option Nat} (henv : tree.Tracks library name env before)
    (hvisit : ∀ station governor, Station.Turn (tree.foldContext library) discipline count env nodes station →
      tree.Tracks library name station.env governor →
      tree.Tracks library name (station.visit (tree.foldContext library)).env
          (station.node.scoping name station.mode governor).behind
        ∧ tree.Mirrors library name (Station.LeadsTo (tree.foldContext library) station)
            (station.node.scoping name station.mode governor).places) :
    tree.Tracks library name (visitAll (tree.foldContext library) discipline count env nodes).env
        (scopingAll name discipline count before nodes).behind
      ∧ tree.Mirrors library name
          (fun last => ∃ station, Station.Turn (tree.foldContext library) discipline count env nodes station
            ∧ Station.LeadsTo (tree.foldContext library) station last)
          (scopingAll name discipline count before nodes).places := by
  induction nodes generalizing discipline count env before with
  | nil =>
    rw [visitAll, scopingAll]
    refine ⟨henv, .nil fun last hlast => ?_⟩
    obtain ⟨station, hturn, -⟩ := hlast
    cases hturn
  | cons node rest ih =>
    cases count with
    | zero =>
      rw [visitAll, scopingAll]
      refine ⟨henv, .nil fun last hlast => ?_⟩
      obtain ⟨station, hturn, -⟩ := hlast
      cases hturn
    | succ count =>
      obtain ⟨hbehind, hfirst⟩ := hvisit _ before .first henv
      obtain ⟨hend, hothers⟩ := ih (henv.after discipline node hbehind)
        fun station governor hturn => hvisit station governor (.later hturn)
      rw [visitAll, scopingAll]
      refine ⟨hend, hfirst.append hothers fun last => ⟨?_, ?_⟩⟩
      · rintro ⟨station, hturn, hlead⟩
        cases hturn with
        | first => exact .inl hlead
        | later hturn => exact .inr ⟨station, hturn, hlead⟩
      · rintro (hlead | ⟨station, hturn, hlead⟩)
        · exact ⟨_, .first, hlead⟩
        · exact ⟨station, .later hturn, hlead⟩

/-- Where the walk and the visit agree in front of a node, they agree behind it and at all that the visit comes to. -/
theorem Visited.tracks (hvalid : tree.validate = .ok ()) (node : Term) :
    ∀ mode env governor, tree.Visited library ⟨mode, env, node⟩ → tree.Tracks library name env governor →
      tree.Tracks library name (node.visit (tree.foldContext library) mode env).env
          (node.scoping name mode governor).behind
        ∧ tree.Mirrors library name (Station.LeadsTo (tree.foldContext library) ⟨mode, env, node⟩)
            (node.scoping name mode governor).places := by
  induction node using Term.induct with
  | hnode id kind children ih =>
    intro mode env governor hvisited henv
    -- the walk plans without an environment
    obtain ⟨hdiscipline, hcount⟩ := Plan.of_eq_of_env (mode.role kind) env (Term.node id kind children).assigned kind
    obtain ⟨hparts, hbelow⟩ := tracks_scopingAll
      (henv.start (mode.role kind) (Term.node id kind children).assigned kind)
      fun (station : Station) governor (hturn : Station.Child _ ⟨mode, env, .node id kind children⟩ station) htracks =>
        ih station.node hturn.mem station.mode station.env governor (hvisited.leadsTo (.child hturn .self)) htracks
    have hbehind := hvisited.tracks_finish hvalid henv hparts
    have hown : tree.Mirrors library name (· = ⟨mode, env, .node id kind children⟩) [(id, governor)] :=
      .singleton henv
    rw [Term.scoping, ← hdiscipline, ← hcount]
    exact ⟨hbehind, hown.append hbelow fun last => Station.leadsTo_iff⟩

/-! ## §4. Reads of variables. -/

theorem isCompileTime_iff_get? {binding : ConstantBinding} {id : Nat} :
    binding.isCompileTime id = true ↔ ∃ value, binding.values.get? id = some (some ⟨value, true⟩) := by
  rw [ConstantBinding.isCompileTime]
  rcases binding.values.get? id with _ | _ | ⟨value, inlined⟩ <;> simp

/-- What is known as final where a node is visited is fixed by a declaration that governs the node. -/
theorem Visited.exists_governor (hvalid : tree.validate = .ok ()) {station : Station}
    (h : tree.Visited library station) {value : Constant} (hknown : station.env.get? name = some ⟨value, true⟩) :
    ∃ declaration, tree.Governs name declaration station.node.id ∧ tree.Fixes library name declaration value := by
  obtain ⟨root, hroot, hlead⟩ := h
  have hstart : tree.Tracks library name .empty none := .empty
  obtain ⟨-, hmirrors⟩ := Visited.tracks hvalid root .declare .empty none ⟨root, hroot, .self⟩ hstart
  obtain ⟨governor, hplace, htracks⟩ := hmirrors.exists_place station hlead
  obtain ⟨declaration, rfl, hfixes⟩ := (htracks value).1 hknown
  exact ⟨declaration, ⟨root, hroot, hplace⟩, hfixes⟩

/-- What a declaration fixes is known as final wherever it governs. -/
theorem Governs.exists_visited (hvalid : tree.validate = .ok ()) {declaration id : Nat}
    (h : tree.Governs name declaration id) {value : Constant} (hfixes : tree.Fixes library name declaration value) :
    ∃ station, tree.Visited library station ∧ station.node.id = id
      ∧ station.env.get? name = some ⟨value, true⟩ := by
  obtain ⟨root, hroot, hplace⟩ := h
  have hstart : tree.Tracks library name .empty none := .empty
  obtain ⟨-, hmirrors⟩ := Visited.tracks hvalid root .declare .empty none ⟨root, hroot, .self⟩ hstart
  obtain ⟨station, hlead, hid, htracks⟩ := hmirrors.exists_station _ hplace
  exact ⟨station, ⟨root, hroot, hlead⟩, hid, (htracks value).2 ⟨declaration, rfl, hfixes⟩⟩

/-- A read that is governed has the constant that the declaration fixes, and is marked. -/
theorem Governs.get?_of_localRead (hvalid : tree.validate = .ok ()) {declaration id : Nat}
    (h : tree.Governs name declaration id) (hread : tree.kind? id = some (.localRead name)) {value : Constant}
    (hfixes : tree.Fixes library name declaration value) :
    (tree.propagate library).values.get? id = some (some ⟨value, true⟩) := by
  have hforest : tree.IsForest := validate_eq_ok_iff.1 hvalid
  obtain ⟨station, hvisited, rfl, hknown⟩ := h.exists_visited hvalid hfixes
  have hkind : station.node.kind = .localRead name := hforest.kind_of_term? (hvisited.term? hforest) hread
  have hrole : station.mode.role station.node.kind = .expression := by
    rw [hkind]
    cases station.mode <;> rfl
  have hadds : station.Adds (tree.foldContext library) _ := Station.adds_of_expression hrole
  have hresult := hadds.known_of_localRead hkind
  rw [hknown, Option.map_some] at hresult
  exact hresult ▸ hvisited.get?_of_adds hvalid hadds

/-- A read of a variable is marked as inlined just when the declaration in force there is final and its initialiser
    has a constant of the declared type, and has that constant then. The initialiser itself need not be marked. -/
theorem isCompileTime_localRead_iff (hvalid : tree.validate = .ok ()) (library : LibraryConstants) {id : Nat}
    {name : String} (hread : tree.kind? id = some (.localRead name)) :
    ((tree.propagate library).isCompileTime id = true
        ↔ ∃ declaration value, tree.Governs name declaration id ∧ tree.Fixes library name declaration value)
      ∧ ∀ declaration value, tree.Governs name declaration id → tree.Fixes library name declaration value →
          (tree.propagate library).value? id = some value := by
  refine ⟨isCompileTime_iff_get?.trans ⟨?_, ?_⟩, fun declaration value hgoverns hfixes => ?_⟩
  · rintro ⟨value, hget⟩
    -- the mark comes from what is known where the read is visited
    obtain ⟨node, hnode, rfl, hkind⟩ := (validate_eq_ok_iff.1 hvalid).exists_term?_of_kind? hread
    obtain ⟨mode, env, hvisited, hadds⟩ := exists_adds_of_get? hvalid hnode hget
    obtain ⟨⟨_, _⟩, hknown, hfolded⟩ := Option.map_eq_some_iff.1 (hadds.known_of_localRead hkind).symm
    cases hfolded
    obtain ⟨declaration, hgoverns, hfixes⟩ := hvisited.exists_governor hvalid hknown
    exact ⟨declaration, _, hgoverns, hfixes⟩
  · rintro ⟨declaration, value, hgoverns, hfixes⟩
    exact ⟨value, hgoverns.get?_of_localRead hvalid hread hfixes⟩
  · rw [ConstantBinding.value?, hgoverns.get?_of_localRead hvalid hread hfixes]
    rfl

/-- A method with `final int x = 3; if (x < 4) { return x; }`. -/
def guarded : SyntaxTree := ofKinds [
  (none, .classDecl "Sample"), (some 0, .method "run" "()I" true), (some 1, .block),
  (some 2, .localDecl "x" "int" true), (some 3, .literal (.int 3)),
  (some 2, .ifStmt), (some 5, .binary .lt), (some 6, .localRead "x"), (some 6, .literal (.int 4)),
  (some 5, .block), (some 9, .returnStmt), (some 10, .localRead "x")]

/-- The declaration governs the read in a branch of a later statement, and the read is marked. -/
theorem isCompileTime_localRead_iff_guarded :
    guarded.Governs "x" 3 11 ∧ guarded.Fixes .empty "x" 3 (.int 3)
      ∧ (guarded.propagate .empty).isCompileTime 11 = true
      ∧ (guarded.propagate .empty).value? 11 = some (.int 3) := by
  have hvalid : guarded.validate = .ok () := eq_ok_of_toOption (by decide +kernel)
  have hread : guarded.kind? 11 = some (.localRead "x") := by decide +kernel
  have hgoverns : guarded.Governs "x" 3 11 := by decide +kernel
  have hfixes : guarded.Fixes .empty "x" 3 (.int 3) :=
    ⟨"int", 4, .int 3, by decide +kernel, by decide +kernel, by decide +kernel, by decide +kernel⟩
  obtain ⟨hmarked, hvalue⟩ := isCompileTime_localRead_iff hvalid .empty hread
  exact ⟨hgoverns, hfixes, hmarked.2 ⟨3, .int 3, hgoverns, hfixes⟩, hvalue 3 _ hgoverns hfixes⟩

/-- A method with `int x = 4; final int y = x; return y;`. -/
def finalCopy : SyntaxTree := ofKinds [
  (none, .classDecl "Sample"), (some 0, .method "run" "()I" true), (some 1, .block),
  (some 2, .localDecl "x" "int" false), (some 3, .literal (.int 4)),
  (some 2, .localDecl "y" "int" true), (some 5, .localRead "x"),
  (some 2, .returnStmt), (some 7, .localRead "y")]

/-- The read of `y` is marked, yet no final declaration that governs it has a marked initialiser: the only one copies
    `x`, which is not final. -/
theorem isCompileTime_finalCopy :
    finalCopy.validate = .ok () ∧ finalCopy.kind? 8 = some (.localRead "y")
      ∧ (finalCopy.propagate .empty).isCompileTime 8 = true
      ∧ finalCopy.Governs "y" 5 8 ∧ finalCopy.kind? 5 = some (.localDecl "y" "int" true)
      ∧ ¬ ∃ declaration initializer, finalCopy.Governs "y" declaration 8
          ∧ (finalCopy.children declaration).head? = some initializer
          ∧ (finalCopy.propagate .empty).isCompileTime initializer = true := by
  refine ⟨eq_ok_of_toOption (by decide +kernel), by decide +kernel, by decide +kernel, by decide +kernel,
    by decide +kernel, ?_⟩
  rintro ⟨declaration, initializer, ⟨root, hroot, hplace⟩, hinitializer, hmarked⟩
  -- one declaration governs the read, and its initialiser is not marked
  have honly : ∀ root ∈ finalCopy.forest, ∀ place ∈ (root.scoping "y" .declare none).places,
      place.1 = 8 → place.2 = some 5 := by decide +kernel
  obtain rfl : declaration = 5 := Option.some.inj (honly root hroot _ hplace rfl)
  have hchildren : (finalCopy.children 5).head? = some 6 := by decide +kernel
  obtain rfl : 6 = initializer := Option.some.inj (hchildren.symm.trans hinitializer)
  exact absurd hmarked (by decide +kernel)

end SyntaxTree

end PatchPresence
