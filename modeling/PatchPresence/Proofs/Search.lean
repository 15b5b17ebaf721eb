/-
  PatchPresence.Proofs.Search — what a depth-first exploration visits, and in which order.

  `Reached` says without a stack which nodes a search may come to: seeds below the bound that were not
  seen, and what edges lead to from there under the same restriction. `DepthFirst` says by recursion what
  the preorder of a forest is; there is one only where the edges come to an end.

  Main results:
    * `mem_explore_iff` — `explore` lists what was seen before and what is `Reached`, nothing else.
    * `DepthFirst.explore_eq` — where no node comes twice, `explore` lists the preorder.
    * `DepthFirst.stackWalk` — there a walk that remembers nothing ends, and lists the preorder too.
    * `DepthFirst.insertLeaf` — where a new leaf comes in the preorder.
-/
import PatchPresence.Data.Explore

namespace PatchPresence

/-! ## §1. Reached nodes. -/

/-- Nodes that a search from the seeds `work` comes to when it may enter neither `seen` nor a node at or
    above `bound`. -/
inductive Reached (next : Nat → List Nat) (bound : Nat) (seen work : List Nat) : Nat → Prop
  | seed {node : Nat} (hwork : node ∈ work) (hlt : node < bound) (hnew : node ∉ seen) :
      Reached next bound seen work node
  | edge {a b : Nat} (ha : Reached next bound seen work a) (hb : b ∈ next a) (hlt : b < bound)
      (hnew : b ∉ seen) : Reached next bound seen work b

namespace Reached

variable {next : Nat → List Nat} {bound : Nat} {seen work rest : List Nat} {node x : Nat}

theorem lt (h : Reached next bound seen work x) : x < bound := by
  cases h with
  | seed _ hlt _ => exact hlt
  | edge _ _ hlt _ => exact hlt

/-- Without seeds nothing is reached. -/
theorem not_nil : ¬ Reached next bound seen [] x := by
  intro h
  induction h with
  | seed hwork _ _ => simp at hwork
  | edge _ _ _ _ ih => exact ih

/-- A seed that may not be entered leads nowhere. -/
theorem cons_iff_of_closed (hclosed : ¬ (node < bound ∧ node ∉ seen)) :
    Reached next bound seen (node :: rest) x ↔ Reached next bound seen rest x := by
  constructor
  · intro h
    induction h with
    | seed hwork hlt hnew =>
      rcases List.mem_cons.1 hwork with rfl | hrest
      · exact absurd ⟨hlt, hnew⟩ hclosed
      · exact .seed hrest hlt hnew
    | edge _ hb hlt hnew ih => exact .edge ih hb hlt hnew
  · intro h
    induction h with
    | seed hwork hlt hnew => exact .seed (List.mem_cons_of_mem _ hwork) hlt hnew
    | edge _ hb hlt hnew ih => exact .edge ih hb hlt hnew

/-- What is reached behind a visited node was within reach before the visit. -/
theorem of_visit (hlt : node < bound) (hnew : node ∉ seen)
    (h : Reached next bound (seen ++ [node]) (next node ++ rest) x) :
    Reached next bound seen (node :: rest) x := by
  induction h with
  | @seed y hwork hylt hynew =>
    have hy : y ∉ seen := fun hmem => hynew (List.mem_append_left _ hmem)
    rcases List.mem_append.1 hwork with hnext | hrest
    · exact .edge (.seed List.mem_cons_self hlt hnew) hnext hylt hy
    · exact .seed (List.mem_cons_of_mem _ hrest) hylt hy
  | edge _ hb hblt hbnew ih =>
    exact .edge ih hb hblt fun hmem => hbnew (List.mem_append_left _ hmem)

/-- A visit takes only the visited node out of reach: what the node leads to is a seed now. -/
theorem visit (h : Reached next bound seen (node :: rest) x) (hne : x ≠ node) :
    Reached next bound (seen ++ [node]) (next node ++ rest) x := by
  induction h with
  | @seed y hwork hlt hnew =>
    have hrest : y ∈ rest := (List.mem_cons.1 hwork).resolve_left hne
    exact .seed (List.mem_append_right _ hrest) hlt (by simp [hnew, hne])
  | @edge a b _ hb hlt hnew ih =>
    have hfresh : b ∉ seen ++ [node] := by simp [hnew, hne]
    by_cases ha : a = node
    · subst ha
      exact .seed (List.mem_append_left _ hb) hlt hfresh
    · exact .edge (ih ha) hb hlt hfresh

end Reached

/-! ## §2. The search. -/

/-- A search lists what was seen before and what it can reach. -/
theorem mem_explore_iff (next : Nat → List Nat) (bound : Nat) (work seen : List Nat) (x : Nat) :
    x ∈ explore next bound work seen ↔ x ∈ seen ∨ Reached next bound seen work x := by
  fun_induction explore next bound work seen with
  | case1 seen =>
    simp [Reached.not_nil]
  | case2 seen node rest hopen ih =>
    obtain ⟨hlt, hfresh⟩ := hopen
    have hnew : node ∉ seen := by simpa using hfresh
    rw [ih]
    constructor
    · rintro (hmem | hreach)
      · rcases List.mem_append.1 hmem with hseen | hself
        · exact .inl hseen
        · rw [List.mem_singleton] at hself
          subst hself
          exact .inr (.seed List.mem_cons_self hlt hnew)
      · exact .inr (hreach.of_visit hlt hnew)
    · rintro (hseen | hreach)
      · exact .inl (List.mem_append_left _ hseen)
      · by_cases hx : x = node
        · exact .inl (by simp [hx])
        · exact .inr (hreach.visit hx)
  | case3 seen node rest hclosed ih =>
    have hshut : ¬ (node < bound ∧ node ∉ seen) := by simpa using hclosed
    rw [ih, Reached.cons_iff_of_closed hshut]

/-! ## §3. Preorder. -/

/-- `DepthFirst next work order`: `order` lists the trees below the nodes of `work`, one tree behind the other
    and each with its root first, then the trees below the root. -/
inductive DepthFirst (next : Nat → List Nat) : List Nat → List Nat → Prop
  | nil : DepthFirst next [] []
  | cons {node : Nat} {rest below behind : List Nat} (hbelow : DepthFirst next (next node) below)
      (hbehind : DepthFirst next rest behind) : DepthFirst next (node :: rest) (node :: (below ++ behind))

/-- `StackWalk next stack order`: the walk that takes the first node off the stack, lists it and puts what it
    leads to in its place comes to an end, and has listed `order`. It does not look whether a node was listed
    before. -/
inductive StackWalk (next : Nat → List Nat) : List Nat → List Nat → Prop
  | done : StackWalk next [] []
  | pop {node : Nat} {rest order : List Nat} (h : StackWalk next (next node ++ rest) order) :
      StackWalk next (node :: rest) (node :: order)

section

variable {next : Nat → List Nat} {bound : Nat} {work order : List Nat}

/-- Where edges lead up in a bounded measure, every list of nodes has a preorder. -/
theorem exists_depthFirst {measure : Nat → Nat} {limit : Nat}
    (hup : ∀ a, ∀ b ∈ next a, measure a < measure b ∧ measure b ≤ limit) (work : List Nat) :
    ∃ order, DepthFirst next work order := by
  have hlevel : ∀ (height : Nat) (work : List Nat), (∀ node ∈ work, limit < measure node + height) →
      ∃ order, DepthFirst next work order := by
    intro height
    induction height with
    | zero =>
      -- above the limit no edge leads anywhere
      intro work hwork
      induction work with
      | nil => exact ⟨[], .nil⟩
      | cons node rest ih =>
        obtain ⟨hnode, hrest⟩ := List.forall_mem_cons.1 hwork
        have hnone : next node = [] := by
          apply List.eq_nil_iff_forall_not_mem.2
          intro b hb
          have hmeasure := hup node b hb
          omega
        have hbelow : DepthFirst next (next node) [] := by
          rw [hnone]
          exact .nil
        obtain ⟨behind, hbehind⟩ := ih hrest
        exact ⟨_, .cons hbelow hbehind⟩
    | succ height ihHeight =>
      intro work hwork
      induction work with
      | nil => exact ⟨[], .nil⟩
      | cons node rest ih =>
        obtain ⟨hnode, hrest⟩ := List.forall_mem_cons.1 hwork
        have hnext : ∀ b ∈ next node, limit < measure b + height := by
          intro b hb
          have hmeasure := hup node b hb
          omega
        obtain ⟨below, hbelow⟩ := ihHeight (next node) hnext
        obtain ⟨behind, hbehind⟩ := ih hrest
        exact ⟨_, .cons hbelow hbehind⟩
  exact hlevel (limit + 1) work fun node _ => by omega

namespace DepthFirst

/-- A walk that remembers nothing lists a preorder, and goes on with what is left on the stack. -/
theorem stackWalk (h : DepthFirst next work order) {rest later : List Nat}
    (hrest : StackWalk next rest later) : StackWalk next (work ++ rest) (order ++ later) := by
  induction h generalizing rest later with
  | nil => exact hrest
  | @cons node others below behind _ _ ihBelow ihBehind =>
    have hwalk := ihBelow (ihBehind hrest)
    rw [← List.append_assoc below] at hwalk
    exact .pop hwalk

/-- Where no node comes twice, a search that skips what it has seen skips nothing. -/
theorem explore_append (h : DepthFirst next work order) (rest : List Nat) {seen : List Nat}
    (hlt : ∀ node ∈ order, node < bound) (hnodup : (seen ++ order).Nodup) :
    explore next bound (work ++ rest) seen = explore next bound rest (seen ++ order) := by
  induction h generalizing rest seen with
  | nil => rw [List.nil_append, List.append_nil]
  | @cons node others below behind _ _ ihBelow ihBehind =>
    obtain ⟨hnodeLt, hrestLt⟩ := List.forall_mem_cons.1 hlt
    obtain ⟨hbelowLt, hbehindLt⟩ := List.forall_mem_append.1 hrestLt
    have hnew : node ∉ seen := fun hmem =>
      (List.nodup_append.1 hnodup).2.2 node hmem node List.mem_cons_self rfl
    have hopen : node < bound ∧ seen.contains node = false := ⟨hnodeLt, by simpa using hnew⟩
    have hlist : seen ++ node :: (below ++ behind) = seen ++ [node] ++ below ++ behind := by simp
    rw [hlist] at hnodup
    calc explore next bound (node :: others ++ rest) seen
        = explore next bound (next node ++ (others ++ rest)) (seen ++ [node]) := by
          rw [List.cons_append, explore, dif_pos hopen]
      _ = explore next bound (others ++ rest) (seen ++ [node] ++ below) :=
          ihBelow _ hbelowLt (List.nodup_append.1 hnodup).1
      _ = explore next bound rest (seen ++ [node] ++ below ++ behind) := ihBehind _ hbehindLt hnodup
      _ = explore next bound rest (seen ++ node :: (below ++ behind)) := by rw [hlist]

theorem explore_eq (h : DepthFirst next work order) (hlt : ∀ node ∈ order, node < bound)
    (hnodup : order.Nodup) : explore next bound work [] = order := by
  have hexplore : explore next bound (work ++ []) [] = explore next bound [] ([] ++ order) :=
    h.explore_append [] hlt hnodup
  rwa [List.append_nil, List.nil_append, explore] at hexplore

theorem append {others later : List Nat} (h : DepthFirst next work order)
    (hothers : DepthFirst next others later) : DepthFirst next (work ++ others) (order ++ later) := by
  induction h with
  | nil => exact hothers
  | cons hbelow _ _ ih =>
    rw [List.cons_append, List.cons_append, List.append_assoc]
    exact .cons hbelow ih

theorem unique {other : List Nat} (h : DepthFirst next work order) (hother : DepthFirst next work other) :
    order = other := by
  induction h generalizing other with
  | nil =>
    cases hother
    rfl
  | cons _ _ ihBelow ihBehind =>
    cases hother with
    | cons hbelow hbehind => rw [ihBelow hbelow, ihBehind hbehind]

/-- A preorder depends only on the edges of the nodes in it. -/
theorem congr {grown : Nat → List Nat} (h : DepthFirst next work order)
    (hsame : ∀ node ∈ order, grown node = next node) : DepthFirst grown work order := by
  induction h with
  | nil => exact .nil
  | @cons node rest below behind _ _ ihBelow ihBehind =>
    obtain ⟨hnode, hothers⟩ := List.forall_mem_cons.1 hsame
    obtain ⟨hbelow, hbehind⟩ := List.forall_mem_append.1 hothers
    refine .cons ?_ (ihBehind hbehind)
    rw [hnode]
    exact ihBelow hbelow

/-- A new leaf at the end of what a node leads to comes right behind all that is below the node. -/
theorem insertLeaf {grown : Nat → List Nat} {owner leaf : Nat} (h : DepthFirst next work order)
    (hnodup : order.Nodup) (howner : owner ∈ order) (hedges : grown owner = next owner ++ [leaf])
    (hleaf : grown leaf = []) (hsame : ∀ node, node ∈ order → node ≠ owner → grown node = next node) :
    ∃ before low after, order = before ++ low ++ after ∧ DepthFirst next [owner] low
      ∧ DepthFirst grown work (before ++ low ++ leaf :: after) := by
  induction h with
  | nil => cases howner
  | @cons node rest below behind hbelow hbehind ihBelow ihBehind =>
    obtain ⟨hnode, hparts⟩ := List.nodup_cons.1 hnodup
    obtain ⟨hbelowNodup, hbehindNodup, hapart⟩ := List.nodup_append.1 hparts
    have hsameBelow : ∀ x ∈ below, x ≠ owner → grown x = next x :=
      fun x hx => hsame x (List.mem_cons_of_mem _ (List.mem_append_left _ hx))
    have hsameBehind : ∀ x ∈ behind, x ≠ owner → grown x = next x :=
      fun x hx => hsame x (List.mem_cons_of_mem _ (List.mem_append_right _ hx))
    -- the owner is in one of three places, and what stands in the other two is as before
    rcases List.mem_cons.1 howner with rfl | hdeeper
    · -- the first node: the trees below it are as before, and the leaf is one more
      have hkeptBelow : DepthFirst grown (next owner) below :=
        hbelow.congr fun x hx => hsameBelow x hx fun heq => hnode (heq ▸ List.mem_append_left _ hx)
      have hkeptBehind : DepthFirst grown rest behind :=
        hbehind.congr fun x hx => hsameBehind x hx fun heq => hnode (heq ▸ List.mem_append_right _ hx)
      have hnone : DepthFirst grown (grown leaf) [] := by
        rw [hleaf]
        exact .nil
      refine ⟨[], owner :: below, behind, rfl, ?_, ?_⟩
      · simpa using DepthFirst.cons hbelow .nil
      · have hgrown := DepthFirst.cons (hedges ▸ hkeptBelow.append (.cons hnone .nil)) hkeptBehind
        simpa using hgrown
    · rcases List.mem_append.1 hdeeper with hin | hin
      · -- below the first node, whose own edges are as before
        obtain ⟨before, low, after, rfl, hlow, hgrown⟩ := ihBelow hbelowNodup hin hsameBelow
        have hkept : DepthFirst grown rest behind :=
          hbehind.congr fun x hx => hsameBehind x hx fun heq => hapart owner hin x hx heq.symm
        have hnext : grown node = next node :=
          hsame node List.mem_cons_self fun heq => hnode (heq ▸ List.mem_append_left _ hin)
        refine ⟨node :: before, low, after ++ behind, by simp, hlow, ?_⟩
        have hall := DepthFirst.cons (hnext ▸ hgrown) hkept
        simpa using hall
      · -- in a tree behind that of the first node
        obtain ⟨before, low, after, rfl, hlow, hgrown⟩ := ihBehind hbehindNodup hin hsameBehind
        have hkept : DepthFirst grown (next node) below :=
          hbelow.congr fun x hx => hsameBelow x hx fun heq => hapart x hx owner hin heq
        have hnext : grown node = next node :=
          hsame node List.mem_cons_self fun heq => hnode (heq ▸ List.mem_append_right _ hin)
        refine ⟨node :: (below ++ before), low, after, by simp, hlow, ?_⟩
        have hall := DepthFirst.cons (hnext ▸ hkept) hgrown
        simpa using hall

end DepthFirst

end

end PatchPresence
