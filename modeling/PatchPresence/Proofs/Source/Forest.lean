/-
  PatchPresence.Proofs.Source.Forest — nested views of syntax trees.

  The nested view goes down a bounded number of levels. Whatever the bound, the check of the links goes
  through the nodes in the order of the nested view, and it refuses a tree that comes to a node twice.

  Main results:
    * `Term.induct` — induction over a term by the terms directly below it.
    * `SyntaxTree.nodup_ids_forest` — in a valid tree every node stands once in the nested view.
-/
import PatchPresence.Proofs.Outcome
import PatchPresence.Source.Tree

namespace PatchPresence

namespace Term

/-! ## §1. Terms and what is below them. -/

/-- Induction over a term by the terms directly below it. -/
theorem induct {P : Term → Prop}
    (hnode : ∀ id kind children, (∀ child ∈ children, P child) → P (.node id kind children)) :
    ∀ term, P term
  | .node id kind children => hnode id kind children fun child _ => induct hnode child

mutual

/-- Positions of a term and of all that is below it. -/
def ids : Term → List Nat
  | .node id _ children => id :: idsAll children

/-- Positions in several terms. -/
def idsAll : List Term → List Nat
  | [] => []
  | term :: rest => term.ids ++ idsAll rest

end

theorem idsAll_eq_flatMap (terms : List Term) : idsAll terms = terms.flatMap ids := by
  induction terms with
  | nil => rfl
  | cons term rest ih => rw [idsAll, ih, List.flatMap_cons]

theorem mem_idsAll {terms : List Term} {id : Nat} :
    id ∈ idsAll terms ↔ ∃ term ∈ terms, id ∈ term.ids := by
  rw [idsAll_eq_flatMap, List.mem_flatMap]

theorem idsAll_append (xs ys : List Term) : idsAll (xs ++ ys) = idsAll xs ++ idsAll ys := by
  rw [idsAll_eq_flatMap, idsAll_eq_flatMap, idsAll_eq_flatMap, List.flatMap_append]

theorem id_mem_ids (term : Term) : term.id ∈ term.ids := by
  cases term with
  | node id kind children =>
    unfold ids
    exact List.mem_cons_self

theorem mem_ids_of_mem_children {term : Term} {id : Nat} (h : id ∈ idsAll term.children) :
    id ∈ term.ids := by
  cases term with
  | node own kind children =>
    unfold ids
    exact List.mem_cons_of_mem _ h

/-- A term is another term or stands below it. -/
inductive Within : Term → Term → Prop
  | self {term : Term} : Within term term
  | deeper {part child : Term} {id : Nat} {kind : NodeKind} {children : List Term}
      (hmem : child ∈ children) (hwithin : Within part child) :
      Within part (.node id kind children)

theorem Within.ids_subset {part whole : Term} (h : Within part whole) :
    ∀ id ∈ part.ids, id ∈ whole.ids := by
  induction h with
  | self => exact fun _ hid => hid
  | deeper hmem _ ih =>
    intro id hid
    exact mem_ids_of_mem_children (mem_idsAll.2 ⟨_, hmem, ih id hid⟩)

end Term

namespace SyntaxTree

/-! ## §2. Valid trees. -/

/-- What is visible of several nodes, each with its own bound on the levels. -/
def viewIds (tree : SyntaxTree) (items : List (Nat × Nat)) : List Nat :=
  items.flatMap fun item => Term.idsAll (tree.termWithin item.1 item.2)

theorem idsAll_flatMap_termWithin (tree : SyntaxTree) (depth : Nat) (nodes : List Nat) :
    Term.idsAll (nodes.flatMap (tree.termWithin depth)) = tree.viewIds (nodes.map (depth, ·)) := by
  unfold viewIds
  induction nodes with
  | nil => rfl
  | cons id rest ih => rw [List.flatMap_cons, Term.idsAll_append, ih, List.map_cons, List.flatMap_cons]

/-- The check of the links comes to no node twice, so neither does a nested view of the same nodes. -/
theorem nodup_viewIds_of_checkLinks {tree : SyntaxTree} {work : List (Nat × Option Nat)}
    {seen reached : List Nat} (h : tree.checkLinks work seen = .ok reached) :
    ∀ items : List (Nat × Nat), items.map Prod.snd = work.map Prod.fst → seen.Nodup →
      (seen ++ tree.viewIds items).Nodup := by
  fun_induction tree.checkLinks work seen with
  | case1 seen =>
    intro items hitems hseen
    obtain rfl : items = [] := by simpa using hitems
    simpa [viewIds] using hseen
  | case2 seen id rest hlt hnew ih =>
    intro items hitems hseen
    obtain ⟨⟨depth, node⟩, others, rfl⟩ : ∃ item others, items = item :: others := by
      cases items with
      | nil => simp at hitems
      | cons item others => exact ⟨item, others, rfl⟩
    simp only [List.map_cons, List.cons.injEq] at hitems
    obtain ⟨rfl, hothers⟩ := hitems
    have hseen' : (seen ++ [node]).Nodup := by
      rw [List.nodup_append]
      refine ⟨hseen, by simp, fun a ha b hb => ?_⟩
      rw [List.mem_singleton] at hb
      rintro rfl
      simp [hb ▸ ha] at hnew
    -- below the node, one level less is visible
    have hbelow : ∀ level, (seen ++ [node]
        ++ (tree.viewIds ((tree.children node).map (level, ·)) ++ tree.viewIds others)).Nodup := by
      intro level
      have hitems : ((tree.children node).map (level, ·) ++ others).map Prod.snd
          = ((tree.children node).map (·, some node) ++ rest).map Prod.fst := by
        simp [hothers, Function.comp_def]
      have hview := ih h _ hitems hseen'
      rwa [viewIds, List.flatMap_append] at hview
    cases depth with
    | zero =>
      have hskip := hbelow 0
      have hsub : (seen ++ tree.viewIds ((0, node) :: others)).Sublist (seen ++ [node]
          ++ (tree.viewIds ((tree.children node).map (0, ·)) ++ tree.viewIds others)) := by
        rw [List.append_assoc]
        refine List.Sublist.append (List.Sublist.refl _) ?_
        show (tree.viewIds others).Sublist _
        exact ((List.sublist_append_right _ _).cons _)
      exact hsub.nodup hskip
    | succ level =>
      have hview : tree.viewIds ((level + 1, node) :: others)
          = node :: (tree.viewIds ((tree.children node).map (level, ·)) ++ tree.viewIds others) := by
        have hnode : tree.node? node = some tree.nodes[node] := Array.getElem?_eq_getElem hlt
        have hchildren : tree.children node = tree.nodes[node].children := by
          unfold children
          rw [hnode]
          rfl
        show Term.idsAll (tree.termWithin (level + 1) node) ++ tree.viewIds others = _
        unfold termWithin
        rw [hnode, hchildren, ← idsAll_flatMap_termWithin]
        simp [Term.idsAll, Term.ids]
      rw [hview]
      simpa using hbelow level
  | case3 => cases h
  | case4 => cases h
  | case5 => cases h

/-- In a valid tree every node stands once in the nested view. -/
theorem nodup_ids_forest {tree : SyntaxTree} (h : tree.validate = .ok ()) :
    (Term.idsAll tree.forest).Nodup := by
  unfold validate at h
  split at h
  · next hforest =>
    unfold checkForest at hforest
    obtain ⟨reached, hlinks, -⟩ := bind_eq_ok_iff.1 hforest
    have hview := nodup_viewIds_of_checkLinks hlinks (tree.roots.map (tree.size, ·))
      (by simp [Function.comp_def]) List.nodup_nil
    rw [List.nil_append] at hview
    unfold forest
    rwa [idsAll_flatMap_termWithin]
  · cases h

end SyntaxTree

end PatchPresence
