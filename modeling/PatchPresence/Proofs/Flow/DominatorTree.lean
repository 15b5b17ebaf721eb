/-
  PatchPresence.Proofs.Flow.DominatorTree — immediate dominators and the preorder of their tree.

  The strict dominators of a block form a chain, and each has a larger dominator set than the one before it.
  So the largest set belongs to one of them only, and it is the last of the chain. Sizes of sets also rise
  from a block to its children in the tree of immediate dominators: that is why the tree has no cycle and a
  walk down comes to an end.

  Main results:
    * `DominatorSets.Final.immediate?_eq_some_iff` — what is chosen by size is the immediate dominator.
    * `Graph.mem_depthFirst_iff`, `Graph.pairwise_depthFirst` — the preorder of the tree lists what its
      roots dominate, and no block behind one that it dominates.
    * `Dominators.isTreeOf_of_compute` — immediate dominators and preorder as computed.
-/
import PatchPresence.Proofs.Flow.Convergence

namespace PatchPresence

namespace Graph

variable {graph : Graph} {a b c p x : Nat}

/-! ## §1. Dominance over paths. -/

/-- A block can be reached, and every path to it passes through another block or the block itself. -/
def Dominates (graph : Graph) (a b : Nat) : Prop := graph.Reaches b ∧ graph.OnEveryPath a b

/-- A block dominates another one. -/
def StrictlyDominates (graph : Graph) (a b : Nat) : Prop := graph.Dominates a b ∧ a ≠ b

/-- A strict dominator that every other strict dominator dominates. -/
def ImmediatelyDominates (graph : Graph) (a b : Nat) : Prop :=
  graph.StrictlyDominates a b
    ∧ ∀ other, graph.StrictlyDominates other b → other ≠ a → graph.Dominates other a

namespace Dominates

theorem refl (h : graph.Reaches b) : graph.Dominates b b := ⟨h, .refl graph b⟩

theorem entry (h : graph.Reaches b) : graph.Dominates 0 b := ⟨h, fun _ hroute => hroute.source_mem⟩

theorem reaches (h : graph.Dominates a b) : graph.Reaches a := by
  obtain ⟨⟨route, hroute⟩, honEvery⟩ := h
  exact hroute.exists_of_mem (honEvery route hroute)

theorem trans (hab : graph.Dominates a b) (hbc : graph.Dominates b c) : graph.Dominates a c := by
  refine ⟨hbc.1, fun route hroute => ?_⟩
  obtain ⟨front, hfront, hsuffix⟩ := hroute.upTo (hbc.2 route hroute)
  exact hsuffix.subset (hab.2 front hfront)

theorem antisymm (hab : graph.Dominates a b) (hba : graph.Dominates b a) : a = b :=
  OnEveryPath.antisymm hab.reaches hab.2 hba.2

/-- The dominators of a block form a chain. -/
theorem total (ha : graph.Dominates a x) (hb : graph.Dominates b x) :
    graph.Dominates a b ∨ graph.Dominates b a := by
  by_cases heq : a = b
  · subst heq
    exact .inl (.refl ha.reaches)
  · exact (OnEveryPath.total ha.1 ha.2 hb.2 heq).imp (fun h => ⟨hb.reaches, h⟩) fun h => ⟨ha.reaches, h⟩

end Dominates

namespace ImmediatelyDominates

theorem unique (ha : graph.ImmediatelyDominates a x) (hb : graph.ImmediatelyDominates b x) : a = b := by
  apply Classical.byContradiction
  intro hne
  exact hne ((hb.2 a ha.1 hne).antisymm (ha.2 b hb.1 (Ne.symm hne)))

/-- Of two blocks with one immediate dominator, neither dominates the other. -/
theorem not_dominates (ha : graph.ImmediatelyDominates p a) (hb : graph.ImmediatelyDominates p b)
    (hne : a ≠ b) : ¬ graph.Dominates a b := by
  intro hab
  have hap : graph.Dominates a p := hb.2 a ⟨hab, hne⟩ (Ne.symm ha.1.2)
  exact ha.1.2 (ha.1.1.antisymm hap)

/-- Blocks with one immediate dominator have nothing below them in common. -/
theorem eq_of_dominates (ha : graph.ImmediatelyDominates p a) (hb : graph.ImmediatelyDominates p b)
    (hax : graph.Dominates a x) (hbx : graph.Dominates b x) : a = b := by
  apply Classical.byContradiction
  intro hne
  rcases hax.total hbx with hab | hba
  · exact not_dominates ha hb hne hab
  · exact not_dominates hb ha (Ne.symm hne) hba

end ImmediatelyDominates

/-! ## §2. The preorder of the tree. -/

/-- Every reachable block but the entry has an immediate dominator, and a measure rises along the way down. -/
structure HasTree (graph : Graph) (measure : Nat → Nat) : Prop where
  parent : ∀ b, graph.Reaches b → b ≠ 0 → ∃ p, graph.ImmediatelyDominates p b
  rises : ∀ a b, graph.StrictlyDominates a b → measure a < measure b

/-- What a block dominates is the block itself, or one of its children dominates it. -/
theorem HasTree.dominates_cases {measure : Nat → Nat} (h : graph.HasTree measure)
    (hpx : graph.Dominates p x) :
    x = p ∨ ∃ c, graph.ImmediatelyDominates p c ∧ graph.Dominates c x := by
  -- by induction on the measure: the immediate dominator of `x` is `p`, or lies between the two
  induction hmeasure : measure x using Nat.strongRecOn generalizing x with
  | _ n ih =>
    by_cases heq : p = x
    · exact .inl heq.symm
    · have hne : x ≠ 0 := by
        rintro rfl
        exact heq (hpx.antisymm (.entry hpx.reaches))
      obtain ⟨q, hq⟩ := h.parent x hpx.1 hne
      refine .inr ?_
      by_cases hqp : p = q
      · subst hqp
        exact ⟨x, hq, .refl hpx.1⟩
      · have hpq : graph.Dominates p q := hq.2 p ⟨hpx, heq⟩ hqp
        have hless : measure q < n := hmeasure ▸ h.rises q x hq.1
        rcases ih (measure q) hless hpq rfl with hsame | ⟨c, hc, hcq⟩
        · exact absurd hsame.symm hqp
        · exact ⟨c, hc, hcq.trans hq.1.1⟩

/-- Two blocks dominate nothing in common. -/
def Apart (graph : Graph) (a b : Nat) : Prop := ∀ x, graph.Dominates a x → ¬ graph.Dominates b x

variable {next : Nat → List Nat} {work order : List Nat}

/-- The preorder below some blocks lists what they dominate. -/
theorem mem_depthFirst_iff {measure : Nat → Nat} (htree : graph.HasTree measure)
    (hnext : ∀ p c, c ∈ next p ↔ graph.ImmediatelyDominates p c)
    (hwork : ∀ a ∈ work, graph.Reaches a) (h : DepthFirst next work order) :
    x ∈ order ↔ ∃ a ∈ work, graph.Dominates a x := by
  induction h with
  | nil => simp
  | @cons node rest below behind _ _ ihBelow ihBehind =>
    obtain ⟨hnode, hrest⟩ := List.forall_mem_cons.1 hwork
    have hchildren : ∀ c ∈ next node, graph.Reaches c := fun c hc => ((hnext node c).1 hc).1.1.1
    rw [List.mem_cons, List.mem_append, ihBelow hchildren, ihBehind hrest]
    constructor
    · rintro (rfl | ⟨c, hc, hcx⟩ | ⟨a, ha, hax⟩)
      · exact ⟨x, List.mem_cons_self, .refl hnode⟩
      · exact ⟨node, List.mem_cons_self, ((hnext node c).1 hc).1.1.trans hcx⟩
      · exact ⟨a, List.mem_cons_of_mem _ ha, hax⟩
    · rintro ⟨a, ha, hax⟩
      rcases List.mem_cons.1 ha with rfl | ha
      · rcases htree.dominates_cases hax with rfl | ⟨c, hc, hcx⟩
        · exact .inl rfl
        · exact .inr (.inl ⟨c, (hnext a c).2 hc, hcx⟩)
      · exact .inr (.inr ⟨a, ha, hax⟩)

/-- The preorder below blocks that are apart lists no block behind one that it dominates, and so no block
    twice. -/
theorem pairwise_depthFirst {measure : Nat → Nat} (htree : graph.HasTree measure)
    (hnext : ∀ p c, c ∈ next p ↔ graph.ImmediatelyDominates p c) (hnodup : ∀ p, (next p).Nodup)
    (hwork : ∀ a ∈ work, graph.Reaches a) (hapart : work.Pairwise graph.Apart)
    (h : DepthFirst next work order) :
    order.Pairwise fun earlier later => ¬ graph.Dominates later earlier := by
  induction h with
  | nil => exact List.Pairwise.nil
  | @cons node rest below behind hbelow hbehind ihBelow ihBehind =>
    obtain ⟨hnode, hrest⟩ := List.forall_mem_cons.1 hwork
    obtain ⟨hnodeApart, hrestApart⟩ := List.pairwise_cons.1 hapart
    have hchildren : ∀ c ∈ next node, graph.Reaches c := fun c hc => ((hnext node c).1 hc).1.1.1
    have hchildrenApart : (next node).Pairwise graph.Apart := by
      apply List.Pairwise.imp_of_mem _ (hnodup node)
      intro c d hc hd hne x hcx hdx
      exact hne (((hnext node c).1 hc).eq_of_dominates ((hnext node d).1 hd) hcx hdx)
    -- what is listed below the node is dominated by it, and not the other way round
    have hstrictlyBelow : ∀ y ∈ below, graph.Dominates node y ∧ ¬ graph.Dominates y node := by
      intro y hy
      obtain ⟨c, hc, hcy⟩ := (mem_depthFirst_iff htree hnext hchildren hbelow).1 hy
      have hchild := ((hnext node c).1 hc).1
      refine ⟨hchild.1.trans hcy, fun hyNode => hchild.2 (hchild.1.antisymm (hcy.trans hyNode))⟩
    -- and what is listed behind it dominates nothing that the node dominates
    have hapartBehind : ∀ y ∈ behind, ∀ z, graph.Dominates node z → ¬ graph.Dominates y z := by
      intro y hy z hnz hyz
      obtain ⟨a, ha, hay⟩ := (mem_depthFirst_iff htree hnext hrest hbehind).1 hy
      exact hnodeApart a ha z hnz (hay.trans hyz)
    refine List.pairwise_cons.2 ⟨fun y hy => ?_, List.pairwise_append.2
      ⟨ihBelow hchildren hchildrenApart, ihBehind hrest hrestApart, fun z hz y hy => ?_⟩⟩
    · rcases List.mem_append.1 hy with hy | hy
      · exact (hstrictlyBelow y hy).2
      · exact hapartBehind y hy node (.refl hnode)
    · exact hapartBehind y hy z (hstrictlyBelow z hz).1

end Graph

/-! ## §3. Immediate dominators by size. -/

namespace DominatorSets

variable {instructions : List Instruction} {handlers : List ExceptionHandler} {graph : Graph}
  {sets : DominatorSets} {a b p : Nat}

/-- Number of dominators of a block. -/
def rank (sets : DominatorSets) (block : Nat) : Nat := ((sets.of? block).map List.length).getD 0

namespace Final

theorem isSome_iff (hb : graph.Built instructions handlers) (h : Final graph sets) :
    (sets.of? b).isSome ↔ graph.Reaches b :=
  (h.shaped.known b).trans hb.mem_reachable_iff

theorem nodup (h : Final graph sets) {set : List Nat} (hset : sets.of? b = some set) : set.Nodup :=
  (h.ordered b set hset).nodup

/-- A strict dominator has fewer dominators. -/
theorem rank_lt (hb : graph.Built instructions handlers) (h : Final graph sets)
    (hab : graph.StrictlyDominates a b) : sets.rank a < sets.rank b := by
  obtain ⟨hdom, hne⟩ := hab
  obtain ⟨before, hbefore⟩ := Option.isSome_iff_exists.1 ((h.isSome_iff hb).2 hdom.reaches)
  obtain ⟨behind, hbehind⟩ := Option.isSome_iff_exists.1 ((h.isSome_iff hb).2 hdom.1)
  -- the dominators of `a` are dominators of `b`, and `b` itself is one more
  have hnew : b ∉ before := by
    intro hmem
    have hba : graph.Dominates b a := ⟨hdom.reaches, (h.mem_iff a before hbefore b).1 hmem⟩
    exact hne (hdom.antisymm hba)
  have hsub : b :: before ⊆ behind := by
    intro x hx
    rcases List.mem_cons.1 hx with rfl | hx
    · exact (h.mem_iff x behind hbehind x).2 (.refl graph x)
    · have hxa : graph.Dominates x a := ⟨hdom.reaches, (h.mem_iff a before hbefore x).1 hx⟩
      exact (h.mem_iff b behind hbehind x).2 (hxa.trans hdom).2
  have hlength := (List.nodup_cons.2 ⟨hnew, h.nodup hbefore⟩).length_le_of_subset hsub
  show ((sets.of? a).map List.length).getD 0 < ((sets.of? b).map List.length).getD 0
  rw [hbefore, hbehind]
  exact hlength

theorem rank_le (hb : graph.Built instructions handlers) (h : Final graph sets) (b : Nat) :
    sets.rank b ≤ graph.size := by
  unfold rank
  cases hset : sets.of? b with
  | none => exact Nat.zero_le _
  | some set =>
    -- dominators are on a path, and all of a path is in the graph
    obtain ⟨route, hroute⟩ : graph.Reaches b := (h.isSome_iff hb).1 (by rw [hset]; rfl)
    have hsub : set ⊆ List.range graph.size := by
      intro x hx
      have hmem := (h.mem_iff b set hset x).1 hx route hroute
      exact List.mem_range.2 (hb.lt_size_of_mem_route hroute x hmem)
    simpa using (h.nodup hset).length_le_of_subset hsub

theorem mem_strict_iff (hb : graph.Built instructions handlers) (h : Final graph sets) {set : List Nat}
    (hset : sets.of? b = some set) : a ∈ set.filter (· != b) ↔ graph.StrictlyDominates a b := by
  have hreaches : graph.Reaches b := (h.isSome_iff hb).1 (by rw [hset]; rfl)
  rw [List.mem_filter, h.mem_iff b set hset, bne_iff_ne]
  exact ⟨fun ha => ⟨⟨hreaches, ha.1⟩, ha.2⟩, fun ha => ⟨ha.1.2, ha.2⟩⟩

/-- Only the entry and blocks that cannot be reached have no immediate dominator. -/
theorem immediate?_eq_none_iff (hb : graph.Built instructions handlers) (h : Final graph sets) :
    sets.immediate? b = none ↔ b = 0 ∨ ¬ graph.Reaches b := by
  rw [← h.isSome_iff hb]
  unfold immediate?
  cases hset : sets.of? b with
  | none => simp
  | some set =>
    show Ascending.lastGreatest sets.rank (set.filter (· != b)) = none ↔ _
    rw [Ascending.lastGreatest_eq_none_iff, List.eq_nil_iff_forall_not_mem]
    simp only [h.mem_strict_iff hb hset, Option.isSome_some, not_true_eq_false, or_false]
    constructor
    · intro hnone
      apply Classical.byContradiction
      intro hne
      have hreaches : graph.Reaches b := (h.isSome_iff hb).1 (by rw [hset]; rfl)
      exact hnone 0 ⟨.entry hreaches, Ne.symm hne⟩
    · rintro rfl a ⟨hdom, hne⟩
      exact hne (hdom.antisymm (.entry hdom.reaches))

/-- What is chosen by the size of its set is the immediate dominator. -/
theorem immediatelyDominates_of_immediate? (hb : graph.Built instructions handlers)
    (h : Final graph sets) (hp : sets.immediate? b = some p) : graph.ImmediatelyDominates p b := by
  unfold immediate? at hp
  cases hset : sets.of? b with
  | none =>
    rw [hset] at hp
    cases hp
  | some set =>
    rw [hset] at hp
    obtain ⟨hmem, hgreatest⟩ := Ascending.of_lastGreatest hp
    have hstrict := (h.mem_strict_iff hb hset).1 hmem
    refine ⟨hstrict, fun other hother hne => ?_⟩
    -- of two strict dominators, the one that is dominated by the other has the larger set
    rcases hother.1.total hstrict.1 with hdom | hdom
    · exact hdom
    · have hless := h.rank_lt hb ⟨hdom, Ne.symm hne⟩
      have hle := hgreatest other ((h.mem_strict_iff hb hset).2 hother)
      exact absurd hless (Nat.not_lt.2 hle)

theorem exists_immediatelyDominates (hb : graph.Built instructions handlers) (h : Final graph sets)
    (hreaches : graph.Reaches b) (hne : b ≠ 0) :
    ∃ p, sets.immediate? b = some p ∧ graph.ImmediatelyDominates p b := by
  have hsome : sets.immediate? b ≠ none := by
    intro hnone
    rcases (h.immediate?_eq_none_iff hb).1 hnone with hzero | hnot
    · exact hne hzero
    · exact hnot hreaches
  obtain ⟨p, hp⟩ := Option.ne_none_iff_exists'.1 hsome
  exact ⟨p, hp, h.immediatelyDominates_of_immediate? hb hp⟩

theorem immediate?_eq_some_iff (hb : graph.Built instructions handlers) (h : Final graph sets) :
    sets.immediate? b = some p ↔ graph.ImmediatelyDominates p b := by
  refine ⟨h.immediatelyDominates_of_immediate? hb, fun hp => ?_⟩
  have hne : b ≠ 0 := by
    rintro rfl
    exact hp.1.2 (hp.1.1.antisymm (.entry hp.1.1.reaches))
  obtain ⟨q, hq, hdom⟩ := h.exists_immediatelyDominates hb hp.1.1.1 hne
  rw [hq, hp.unique hdom]

theorem hasTree (hb : graph.Built instructions handlers) (h : Final graph sets) :
    graph.HasTree sets.rank where
  parent b hreaches hne := by
    obtain ⟨p, -, hp⟩ := h.exists_immediatelyDominates hb hreaches hne
    exact ⟨p, hp⟩
  rises a b hab := h.rank_lt hb hab

end Final

end DominatorSets

/-! ## §4. The tree as computed. -/

namespace Dominators

open DominatorSets

variable {instructions : List Instruction} {handlers : List ExceptionHandler} {graph : Graph}
  {cap : Nat} {dominators : Dominators}

theorem exists_final_of_compute (hb : graph.Built instructions handlers)
    (h : compute graph cap = .ok dominators) : ∃ sets, Final graph sets ∧ dominators = ofSets sets := by
  unfold compute at h
  rw [if_neg (Nat.ne_of_gt hb.size_pos)] at h
  split at h
  · next final hfinal =>
    have hround : ∀ sets, (∃ count, Narrowed graph count sets) →
        ∃ count, Narrowed graph count (sets.round graph) := by
      rintro sets ⟨count, hsets⟩
      exact ⟨count + 1, hsets.round hb⟩
    obtain ⟨⟨count, hnarrowed⟩, hfix⟩ := iterate_spec hround ⟨1, narrowed_initial hb⟩ hfinal
    refine ⟨final, ⟨hnarrowed.shaped, hnarrowed.ordered, fun b set hset a => ?_⟩, (Except.ok.inj h).symm⟩
    exact ⟨onEveryPath_of_mem hb hnarrowed.shaped hfix hset, hnarrowed.covers b set hset a⟩
  · cases h

theorem immediateOf?_ofSets (sets : DominatorSets) (b : Nat) :
    (ofSets sets).immediateOf? b = sets.immediate? b := by
  show (sets.immediate[b]?).join = sets.immediate? b
  unfold DominatorSets.immediate
  rw [List.getElem?_map]
  by_cases hlt : b < sets.length
  · rw [List.getElem?_range hlt]
    rfl
  · have hrange : (List.range sets.length)[b]? = none := by simpa using hlt
    have hnone : sets.of? b = none := by
      unfold of?
      rw [List.getElem?_eq_none (Nat.le_of_not_lt hlt)]
      rfl
    unfold immediate?
    rw [hrange, hnone]
    rfl

theorem mem_children_iff {p c : Nat} :
    c ∈ children dominators.immediate p ↔ dominators.immediateOf? c = some p := by
  unfold children immediateOf?
  simp only [List.mem_map, List.mem_filter, beq_iff_eq, Prod.exists, List.mem_zipIdx_iff_getElem?]
  constructor
  · rintro ⟨parent, index, ⟨hat, rfl⟩, rfl⟩
    rw [hat]
    rfl
  · intro hjoin
    exact ⟨some p, c, ⟨Option.join_eq_some_iff.1 hjoin, rfl⟩, rfl⟩

theorem pairwise_children (immediate : List (Option Nat)) (p : Nat) :
    (children immediate p).Pairwise (· < ·) := by
  have hindices : (immediate.zipIdx.map Prod.snd).Pairwise (· < ·) := by
    rw [List.zipIdx_map_snd]
    exact List.pairwise_lt_range'
  unfold children
  rw [List.pairwise_map] at hindices ⊢
  exact hindices.filter _

/-- What immediate dominators and preorder say about a graph. -/
structure IsTreeOf (dominators : Dominators) (graph : Graph) : Prop where
  immediateOf?_eq_none_iff : ∀ b, dominators.immediateOf? b = none ↔ b = 0 ∨ ¬ graph.Reaches b
  immediateOf?_eq_some_iff : ∀ p b, dominators.immediateOf? b = some p ↔ graph.ImmediatelyDominates p b
  children_iff : ∀ p c, c ∈ children dominators.immediate p ↔ dominators.immediateOf? c = some p
  children_ascend : ∀ p, (children dominators.immediate p).Pairwise (· < ·)
  /-- The preorder of the tree of immediate dominators, with children in ascending order. -/
  preorder_depthFirst : DepthFirst (children dominators.immediate) [0] dominators.preorder
  /-- A walk down the tree that does not look where it has been comes to an end. -/
  preorder_ends : StackWalk (children dominators.immediate) [0] dominators.preorder
  mem_preorder_iff : ∀ b, b ∈ dominators.preorder ↔ graph.Reaches b
  preorder_nodup : dominators.preorder.Nodup
  /-- A block comes after its strict dominators. -/
  dominator_first : ∀ a b, graph.StrictlyDominates a b →
    dominators.preorder.idxOf a < dominators.preorder.idxOf b

/-- Where no element dominates one before it, dominators come first. -/
theorem idxOf_lt_of_pairwise {order : List Nat} {a b : Nat}
    (h : order.Pairwise fun earlier later => ¬ graph.Dominates later earlier) (ha : a ∈ order)
    (hb : b ∈ order) (hab : graph.StrictlyDominates a b) : order.idxOf a < order.idxOf b := by
  have haLt : order.idxOf a < order.length := List.idxOf_lt_length_iff.2 ha
  have hbLt : order.idxOf b < order.length := List.idxOf_lt_length_iff.2 hb
  have haAt : order[order.idxOf a] = a := List.getElem_idxOf haLt
  have hbAt : order[order.idxOf b] = b := List.getElem_idxOf hbLt
  apply Nat.lt_of_not_le
  intro hle
  rcases Nat.lt_or_eq_of_le hle with hlt | heq
  · have hnot := List.pairwise_iff_getElem.1 h _ _ hbLt haLt hlt
    rw [haAt, hbAt] at hnot
    exact hnot hab.1
  · exact hab.2 (by rw [← haAt, ← hbAt]; simp only [heq])

/-- The tree of sets that say what is on every path. -/
theorem isTreeOf_ofSets (hb : graph.Built instructions handlers) {sets : DominatorSets}
    (h : Final graph sets) : (ofSets sets).IsTreeOf graph := by
  have hentry : graph.Reaches 0 := ⟨[0], .start⟩
  have hsome : ∀ p b, (ofSets sets).immediateOf? b = some p ↔ graph.ImmediatelyDominates p b := by
    intro p b
    rw [immediateOf?_ofSets, h.immediate?_eq_some_iff hb]
  have hnext : ∀ p c, c ∈ children sets.immediate p ↔ graph.ImmediatelyDominates p c :=
    fun p c => mem_children_iff.trans (hsome p c)
  have hnodup : ∀ p, (children sets.immediate p).Nodup :=
    fun p => (pairwise_children sets.immediate p).imp Nat.ne_of_lt
  have hup : ∀ p, ∀ c ∈ children sets.immediate p,
      sets.rank p < sets.rank c ∧ sets.rank c ≤ graph.size :=
    fun p c hc => ⟨h.rank_lt hb ((hnext p c).1 hc).1, h.rank_le hb c⟩
  have hroot : ∀ a ∈ [0], graph.Reaches a := by simpa using hentry
  obtain ⟨order, horder⟩ := exists_depthFirst hup [0]
  have hmem : ∀ b, b ∈ order ↔ graph.Reaches b := by
    intro b
    rw [Graph.mem_depthFirst_iff (h.hasTree hb) hnext hroot horder]
    constructor
    · rintro ⟨a, -, hdom⟩
      exact hdom.1
    · exact fun hreaches => ⟨0, List.mem_cons_self, .entry hreaches⟩
  have hpairwise := Graph.pairwise_depthFirst (h.hasTree hb) hnext hnodup hroot
    (List.pairwise_singleton _ _) horder
  have horderNodup : order.Nodup := by
    apply List.Pairwise.imp_of_mem _ hpairwise
    rintro a b ha - hnot rfl
    exact hnot (.refl ((hmem a).1 ha))
  -- no block comes twice, so the search lists the preorder
  have hpreorder : (ofSets sets).preorder = order := by
    apply horder.explore_eq _ horderNodup
    intro b hb'
    rw [h.shaped.length]
    exact lt_size_of_mem_reachable (hb.mem_reachable_iff.2 ((hmem b).1 hb'))
  exact {
    immediateOf?_eq_none_iff := by
      intro b
      rw [immediateOf?_ofSets, h.immediate?_eq_none_iff hb]
    immediateOf?_eq_some_iff := hsome
    children_iff := fun p c => mem_children_iff
    children_ascend := pairwise_children sets.immediate
    preorder_depthFirst := hpreorder ▸ horder
    preorder_ends := by
      have hwalk := horder.stackWalk .done
      rw [List.append_nil, List.append_nil] at hwalk
      exact hpreorder ▸ hwalk
    mem_preorder_iff := hpreorder ▸ hmem
    preorder_nodup := hpreorder ▸ horderNodup
    dominator_first := by
      intro a b hab
      rw [hpreorder]
      exact idxOf_lt_of_pairwise hpairwise ((hmem a).2 hab.1.reaches) ((hmem b).2 hab.1.1) hab }

/-- **Immediate dominators form a tree, and the preorder is its preorder.** Only the entry and blocks that
    it does not reach have no immediate dominator; the one of any other block is its one strict dominator
    that all others dominate. The preorder is the depth-first preorder of the tree, children by ascending
    index; it lists every reachable block once and no other, each behind its strict dominators. -/
theorem isTreeOf_of_compute (hbuild : Graph.build instructions handlers = .ok graph)
    (hcompute : compute graph cap = .ok dominators) : dominators.IsTreeOf graph := by
  have hb := Graph.built_of_build hbuild
  obtain ⟨sets, hfinal, rfl⟩ := exists_final_of_compute hb hcompute
  exact isTreeOf_ofSets hb hfinal

/-- Two ways that meet again at offset 12; nothing leads to the jump behind the return. -/
def forkAndJoin : List Instruction :=
  [⟨0, 0x1a, .none, none⟩, ⟨1, 0x99, .branch 8, none⟩, ⟨4, 0xa7, .branch 12, none⟩,
    ⟨8, 0xa7, .branch 12, none⟩, ⟨12, 0xb1, .none, none⟩, ⟨13, 0xa7, .branch 12, none⟩]

/-- Where two ways meet, neither of them dominates: the block with the fork does. -/
theorem isTreeOf_of_compute_forkAndJoin :
    ∃ graph dominators, Graph.build forkAndJoin [] = .ok graph
      ∧ compute graph 5 = .ok dominators
      ∧ dominators.immediateOf? 3 = some 0 ∧ graph.ImmediatelyDominates 0 3
      ∧ ¬ graph.ImmediatelyDominates 2 3
      ∧ dominators.immediateOf? 4 = none ∧ ¬ graph.Reaches 4
      ∧ dominators.preorder.idxOf 0 < dominators.preorder.idxOf 3
      ∧ 4 ∉ dominators.preorder := by
  let built : Graph := ⟨[
    ⟨0, ⟨0, 0x1a, .none, none⟩, [⟨1, 0x99, .branch 8, none⟩],
      [⟨.block 2, .conditionalTrue⟩, ⟨.block 1, .conditionalFalse⟩]⟩,
    ⟨1, ⟨4, 0xa7, .branch 12, none⟩, [], [⟨.block 3, .jump⟩]⟩,
    ⟨2, ⟨8, 0xa7, .branch 12, none⟩, [], [⟨.block 3, .jump⟩]⟩,
    ⟨3, ⟨12, 0xb1, .none, none⟩, [], [⟨.exit, .leave⟩]⟩,
    ⟨4, ⟨13, 0xa7, .branch 12, none⟩, [], [⟨.block 3, .jump⟩]⟩]⟩
  let sets : DominatorSets := [some [0], some [0, 1], some [0, 2], some [0, 3], none]
  have hbuild : Graph.build forkAndJoin [] = .ok built := by rfl
  have hblocks : built.reachable = [0, 1, 2, 3] := by cbv
  have hsets : DominatorSets.iterate built 5 (.initial built) = some sets := by
    simp only [DominatorSets.iterate, DominatorSets.round, DominatorSets.initial, hblocks]
    decide +kernel
  have hcompute : compute built 5 = .ok (ofSets sets) := by
    rw [compute, if_neg (by decide), hsets]
  have htree := isTreeOf_of_compute hbuild hcompute
  have hjoin : (ofSets sets).immediateOf? 3 = some 0 := by decide
  have hlost : (ofSets sets).immediateOf? 4 = none := by decide
  have hdom := (htree.immediateOf?_eq_some_iff 0 3).1 hjoin
  have hunreachable : ¬ built.Reaches 4 :=
    ((htree.immediateOf?_eq_none_iff 4).1 hlost).resolve_left (by decide)
  refine ⟨built, _, hbuild, hcompute, hjoin, hdom, fun htwo => ?_, hlost, hunreachable,
    htree.dominator_first 0 3 hdom.1, fun hmem => hunreachable ((htree.mem_preorder_iff 4).1 hmem)⟩
  exact absurd ((htree.immediateOf?_eq_some_iff 2 3).2 htwo) (by decide)

end Dominators

end PatchPresence
