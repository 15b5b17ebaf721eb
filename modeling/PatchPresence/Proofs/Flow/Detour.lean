/-
  PatchPresence.Proofs.Flow.Detour — paths around a block, and natural loops in terms of them.

  Nothing here is computed: dominance and loops are said over all paths of an arbitrary graph, and all that
  is used of a path is where it starts, where it ends and which blocks are on it.

  Main results:
    * `OnEveryPath.total`, `OnEveryPath.antisymm` — the blocks on every path to a reachable block form a
      chain.
    * `InLoop.onEveryPath` — the header of a loop is on every path to every member.
    * `inLoop_of_inLoop` — of two loops that meet, the one whose header comes later lies in the other.
-/
import PatchPresence.Proofs.Flow.Dominance

namespace PatchPresence

namespace Graph

variable {graph : Graph} {a b s t x : Nat} {route : List Nat}

/-! ## §1. Routes. -/

theorem Path.target_mem (h : graph.Path s t route) : t ∈ route := by
  cases h with
  | start => exact List.mem_cons_self
  | extend _ _ => exact List.mem_cons_self

theorem Path.source_mem (h : graph.Path s t route) : s ∈ route := by
  induction h with
  | start => exact List.mem_cons_self
  | extend _ _ ih => exact List.mem_cons_of_mem _ ih

/-- A path goes on where another ends. -/
theorem Path.append {behind : List Nat} (h : graph.Path s b route) (hbehind : graph.Path b t behind) :
    ∃ whole, graph.Path s t whole ∧ ∀ x ∈ whole, x ∈ route ∨ x ∈ behind := by
  induction hbehind with
  | start => exact ⟨route, h, fun x hx => .inl hx⟩
  | @extend c d behind _ hedge ih =>
    obtain ⟨whole, hwhole, hmem⟩ := ih
    refine ⟨d :: whole, .extend hwhole hedge, fun x hx => ?_⟩
    rcases List.mem_cons.1 hx with rfl | hx
    · exact .inr List.mem_cons_self
    · rcases hmem x hx with hroute | hbehind
      · exact .inl hroute
      · exact .inr (List.mem_cons_of_mem _ hbehind)

/-- What is left of a path behind a block on it. -/
theorem Path.behind (h : graph.Path s t route) (ha : a ∈ route) :
    ∃ rest, graph.Path a t rest ∧ ∀ x ∈ rest, x ∈ route := by
  induction h with
  | start =>
    rw [List.mem_singleton] at ha
    subst ha
    exact ⟨[a], .start, fun x hx => hx⟩
  | @extend c d route _ hedge ih =>
    by_cases had : a = d
    · subst had
      refine ⟨[a], .start, fun x hx => ?_⟩
      rw [List.mem_singleton] at hx
      exact hx ▸ List.mem_cons_self
    · obtain ⟨rest, hrest, hmem⟩ := ih ((List.mem_cons.1 ha).resolve_left had)
      refine ⟨d :: rest, .extend hrest hedge, fun x hx => ?_⟩
      rcases List.mem_cons.1 hx with rfl | hx
      · exact List.mem_cons_self
      · exact List.mem_cons_of_mem _ (hmem x hx)

/-! ## §2. Paths around a block. -/

/-- Some path leads from one block to another without passing `avoided`. -/
def PathAround (graph : Graph) (avoided source target : Nat) : Prop :=
  ∃ route, graph.Path source target route ∧ avoided ∉ route

namespace PathAround

theorem refl (hne : a ≠ s) : graph.PathAround a s s :=
  ⟨[s], .start, fun hmem => hne (List.mem_singleton.1 hmem)⟩

theorem trans (h : graph.PathAround a s b) (hbehind : graph.PathAround a b t) :
    graph.PathAround a s t := by
  obtain ⟨front, hfront, hfrontNot⟩ := h
  obtain ⟨back, hback, hbackNot⟩ := hbehind
  obtain ⟨whole, hwhole, hmem⟩ := hfront.append hback
  exact ⟨whole, hwhole, fun ha => (hmem a ha).elim hfrontNot hbackNot⟩

theorem extend (h : graph.PathAround a s b) (hedge : graph.HasEdge b t) (hne : a ≠ t) :
    graph.PathAround a s t := by
  obtain ⟨route, hroute, hnot⟩ := h
  refine ⟨t :: route, .extend hroute hedge, fun hmem => ?_⟩
  exact (List.mem_cons.1 hmem).elim hne hnot

theorem step (h : graph.PathAround a s b) (hedge : graph.HasEdge b x) (hbehind : graph.PathAround a x t) :
    graph.PathAround a s t := by
  have hne : a ≠ x := by
    rintro rfl
    obtain ⟨route, hroute, hnot⟩ := hbehind
    exact hnot hroute.source_mem
  exact (h.extend hedge hne).trans hbehind

end PathAround

theorem not_onEveryPath_iff : ¬ graph.OnEveryPath a b ↔ graph.PathAround a 0 b := by
  unfold OnEveryPath PathAround
  constructor
  · intro h
    obtain ⟨route, hroute⟩ := Classical.not_forall.1 h
    exact ⟨route, Classical.not_imp.1 hroute⟩
  · rintro ⟨route, hroute, hnot⟩ h
    exact hnot (h route hroute)

/-- Of two blocks a path comes to one first, and so far it is a path around the other. -/
theorem Path.first_of_two (h : graph.Path s t route) (hne : a ≠ b) (hmem : a ∈ route ∨ b ∈ route) :
    graph.PathAround b s a ∨ graph.PathAround a s b := by
  induction h with
  | start =>
    rw [List.mem_singleton, List.mem_singleton] at hmem
    rcases hmem with rfl | rfl
    · exact .inl (.refl (Ne.symm hne))
    · exact .inr (.refl hne)
  | @extend c d route hpath hedge ih =>
    by_cases hbefore : a ∈ route ∨ b ∈ route
    · exact ih hbefore
    · -- neither was passed before, so one of them is the block that the last edge leads to
      obtain ⟨ha, hb⟩ := not_or.1 hbefore
      rw [List.mem_cons, List.mem_cons] at hmem
      rcases hmem with (rfl | hmem) | (rfl | hmem)
      · exact .inl (.extend ⟨route, hpath, hb⟩ hedge (Ne.symm hne))
      · exact absurd hmem ha
      · exact .inr (.extend ⟨route, hpath, ha⟩ hedge hne)
      · exact absurd hmem hb

/-- Of two blocks a path leaves one last, and from there on it is a path around the other. -/
theorem Path.last_of_two (h : graph.Path s t route) (hne : a ≠ b) (hmem : a ∈ route ∨ b ∈ route) :
    graph.PathAround b a t ∨ graph.PathAround a b t := by
  induction h with
  | start =>
    rw [List.mem_singleton, List.mem_singleton] at hmem
    rcases hmem with rfl | rfl
    · exact .inl (.refl (Ne.symm hne))
    · exact .inr (.refl hne)
  | @extend c d route hpath hedge ih =>
    by_cases had : a = d
    · subst had
      exact .inl (.refl (Ne.symm hne))
    · by_cases hbd : b = d
      · subst hbd
        exact .inr (.refl hne)
      · rw [List.mem_cons, List.mem_cons] at hmem
        have hbefore : a ∈ route ∨ b ∈ route :=
          hmem.imp (fun ha => ha.resolve_left had) (fun hb => hb.resolve_left hbd)
        exact (ih hbefore).imp (fun h => h.extend hedge hbd) (fun h => h.extend hedge had)

/-! ## §3. Dominance over paths. -/

/-- Some path leads to a block from the entry. -/
def Reaches (graph : Graph) (block : Nat) : Prop := ∃ route, graph.Path 0 block route

theorem Reaches.append (h : graph.Reaches s) (hpath : graph.Path s t route) : graph.Reaches t := by
  obtain ⟨front, hfront⟩ := h
  obtain ⟨whole, hwhole, -⟩ := hfront.append hpath
  exact ⟨whole, hwhole⟩

namespace OnEveryPath

theorem refl (graph : Graph) (block : Nat) : graph.OnEveryPath block block :=
  fun _ hroute => hroute.target_mem

/-- Where a path around `a` leads to a block that `a` is on every path to, `a` came before it began. -/
theorem of_pathAround (h : graph.OnEveryPath a x) (hpath : graph.PathAround a s x) :
    graph.OnEveryPath a s := by
  apply Classical.byContradiction
  intro hnot
  exact not_onEveryPath_iff.2 ((not_onEveryPath_iff.1 hnot).trans hpath) h

theorem antisymm (ha : graph.Reaches a) (hab : graph.OnEveryPath a b) (hba : graph.OnEveryPath b a) :
    a = b := by
  apply Classical.byContradiction
  intro hne
  obtain ⟨route, hroute⟩ := ha
  rcases hroute.first_of_two hne (.inl hroute.target_mem) with haround | haround
  · exact not_onEveryPath_iff.2 haround hba
  · exact not_onEveryPath_iff.2 haround hab

/-- Of two blocks on every path to a reachable block, one is on every path to the other. -/
theorem total (hx : graph.Reaches x) (ha : graph.OnEveryPath a x) (hb : graph.OnEveryPath b x)
    (hne : a ≠ b) : graph.OnEveryPath a b ∨ graph.OnEveryPath b a := by
  obtain ⟨route, hroute⟩ := hx
  rcases hroute.last_of_two hne (.inl (ha route hroute)) with haround | haround
  · exact .inr (hb.of_pathAround haround)
  · exact .inl (ha.of_pathAround haround)

end OnEveryPath

/-! ## §4. Natural loops. -/

/-- A reachable block with an edge back to a header that is on every path to it. -/
structure IsLatch (graph : Graph) (header latch : Nat) : Prop where
  reaches : graph.Reaches latch
  edge : graph.HasEdge latch header
  dominated : graph.OnEveryPath header latch

/-- Members of the loop of a header: the header, and the reachable blocks from which a path around the
    header leads to a latch. -/
def InLoop (graph : Graph) (header block : Nat) : Prop :=
  block = header
    ∨ graph.Reaches block ∧ ∃ latch, graph.IsLatch header latch ∧ graph.PathAround header block latch

variable {header block inner outer : Nat}

theorem IsLatch.reaches_header (h : graph.IsLatch header block) : graph.Reaches header :=
  h.reaches.append (.extend .start h.edge)

/-- The header of a loop is on every path to every member. -/
theorem InLoop.onEveryPath (h : graph.InLoop header block) : graph.OnEveryPath header block := by
  rcases h with rfl | ⟨-, latch, hlatch, hpath⟩
  · exact .refl graph _
  · exact hlatch.dominated.of_pathAround hpath

theorem InLoop.reaches (hheader : graph.Reaches header) (h : graph.InLoop header block) :
    graph.Reaches block := by
  rcases h with rfl | ⟨hreaches, -⟩
  · exact hheader
  · exact hreaches

/-- A block on a path around the header from a reachable block to a latch is a member. -/
theorem inLoop_of_mem (hlatch : graph.IsLatch header t) (hs : graph.Reaches s)
    (hroute : graph.Path s t route) (hnot : header ∉ route) (hblock : block ∈ route) :
    graph.InLoop header block := by
  obtain ⟨rest, hrest, hsub⟩ := hroute.behind hblock
  obtain ⟨front, hfront⟩ := hroute.exists_of_mem hblock
  exact .inr ⟨hs.append hfront, t, hlatch, rest, hrest, fun hmem => hnot (hsub header hmem)⟩

/-- A header is no member of the loop of a later header. -/
theorem not_inLoop_header (houter : graph.Reaches outer) (hne : outer ≠ inner)
    (hdom : graph.OnEveryPath outer inner) : ¬ graph.InLoop inner outer :=
  fun h => hne (OnEveryPath.antisymm houter hdom h.onEveryPath)

/-- When two loops meet, a path around the outer header leads from the inner header to an outer latch: to
    the common member first, and from there as that member does. -/
theorem exists_latch_of_meet (houter : graph.Reaches outer) (hne : outer ≠ inner)
    (hdom : graph.OnEveryPath outer inner) (hx : graph.InLoop outer x) (hxInner : graph.InLoop inner x) :
    ∃ latch, graph.IsLatch outer latch ∧ graph.PathAround outer inner latch := by
  have hnot := not_inLoop_header houter hne hdom
  have hxReaches := hx.reaches houter
  obtain ⟨route, hroute⟩ := hxReaches
  have htoMember : graph.PathAround outer inner x := by
    rcases hroute.last_of_two hne (.inl (hx.onEveryPath route hroute)) with haround | haround
    · exact absurd (OnEveryPath.antisymm houter hdom (hxInner.onEveryPath.of_pathAround haround)) hne
    · exact haround
  rcases hx with rfl | ⟨-, latch, hlatch, hpath⟩
  · exact absurd hxInner hnot
  · exact ⟨latch, hlatch, htoMember.trans hpath⟩

/-- Of two loops that meet, the one whose header comes later lies in the other. -/
theorem inLoop_of_inLoop (houter : graph.Reaches outer) (hne : outer ≠ inner)
    (hdom : graph.OnEveryPath outer inner) (hinner : graph.Reaches inner) (hx : graph.InLoop outer x)
    (hxInner : graph.InLoop inner x) (hblock : graph.InLoop inner block) : graph.InLoop outer block := by
  have hnot := not_inLoop_header houter hne hdom
  obtain ⟨latch, hlatch, hfromInner⟩ := exists_latch_of_meet houter hne hdom hx hxInner
  rcases hblock with rfl | ⟨hreaches, back, hback, route, hroute, hrouteNot⟩
  · exact .inr ⟨hinner, latch, hlatch, hfromInner⟩
  · -- were the outer header on the way to the inner latch, it would be a member of the inner loop
    have hrouteOuter : outer ∉ route := fun hmem =>
      hnot (inLoop_of_mem hback hreaches hroute hrouteNot hmem)
    have htoInner : graph.PathAround outer block inner :=
      .extend ⟨route, hroute, hrouteOuter⟩ hback.edge hne
    exact .inr ⟨hreaches, latch, hlatch, htoInner.trans hfromInner⟩

end Graph

end PatchPresence
