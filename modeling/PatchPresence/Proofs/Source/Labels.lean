/-
  PatchPresence.Proofs.Source.Labels — scopes are told apart by their labels.

  A scope is labelled with the key of the nearest method around it, and with its place among the scopes in that
  method. Among these are scopes of methods further in, which are labelled with keys of their own; so some places
  occur in no label, and none occurs in two.

  Main results:
    * `SyntaxTree.IsForest.exists_methodSignature?_iff` — the methods that have a signature.
    * `SyntaxTree.labelText_inj` — key and place are read back from a label.
    * `SyntaxTree.blockLabel?_identifies` — the scopes in methods of classes have labels, no two the same.
-/
import PatchPresence.Proofs.Source.Scopes
import PatchPresence.Proofs.Text.Cut

namespace PatchPresence.SyntaxTree

variable {tree : SyntaxTree} {id method : Nat}

/-! ## §1. Methods of classes. -/

/-- A method somewhere in a class. -/
def IsClassMethod (tree : SyntaxTree) (method : Nat) : Prop :=
  tree.has NodeKind.isMethod method = true
    ∧ ∃ owner, tree.Below owner method ∧ tree.has NodeKind.isClass owner = true

theorem IsForest.exists_className?_iff (hforest : tree.IsForest) (hid : id < tree.size) :
    (∃ name, tree.className? id = some name)
      ↔ ∃ owner, tree.Below owner id ∧ tree.has NodeKind.isClass owner = true := by
  constructor
  · rintro ⟨name, hname⟩
    obtain ⟨owner, howner, -⟩ := Option.bind_eq_some_iff.1 hname
    obtain ⟨hbelow, hclass, -⟩ := hforest.nearest_of_ancestor? howner
    exact ⟨owner, hbelow, hclass⟩
  · rintro ⟨owner, hbelow, hclass⟩
    obtain ⟨nearest, hnearest⟩ := hforest.exists_ancestor? hid hbelow hclass
    obtain ⟨kind, hkind, hisClass⟩ := exists_kind_of_has (hforest.nearest_of_ancestor? hnearest).2.1
    cases kind with
    | classDecl name =>
      refine ⟨name, ?_⟩
      simp only [className?, enclosingClass?, hnearest, Option.bind_eq_bind, Option.bind_some, hkind]
    | _ => cases hisClass

theorem IsForest.exists_methodSignature?_iff (hforest : tree.IsForest) :
    (∃ signature, tree.methodSignature? method = some signature) ↔ tree.IsClassMethod method := by
  constructor
  · rintro ⟨signature, hsignature⟩
    obtain ⟨kind, hkind, hrest⟩ := Option.bind_eq_some_iff.1 hsignature
    cases kind with
    | method name descriptor isStatic =>
      have hmethod : tree.has NodeKind.isMethod method = true := has_of_kind hkind rfl
      obtain ⟨owner, howner, -⟩ := Option.bind_eq_some_iff.1 hrest
      exact ⟨hmethod, (hforest.exists_className?_iff (lt_size_of_has hmethod)).1 ⟨owner, howner⟩⟩
    | _ => cases hrest
  · rintro ⟨hmethod, howner⟩
    obtain ⟨name, hname⟩ := (hforest.exists_className?_iff (lt_size_of_has hmethod)).2 howner
    obtain ⟨kind, hkind, hisMethod⟩ := exists_kind_of_has hmethod
    cases kind with
    | method name descriptor isStatic =>
      simp only [methodSignature?, hkind, hname, Option.bind_eq_bind, Option.bind_some]
      exact ⟨_, rfl⟩
    | _ => cases hisMethod

/-! ## §2. Keys and places. -/

/-- The text of a label: the key of a method, and the place of a scope in the method unless it is the method. -/
def labelText (key : String) : Option Nat → String
  | none => key
  | some ordinal => key ++ "#" ++ toString (ordinal + 1)

theorem cut?_labelText {key : String} (hkey : '#' ∉ key.toList) (place : Option Nat) :
    Text.cut? ['#'] (labelText key place).toList
      = place.map fun ordinal => (key.toList, Text.numeral (ordinal + 1)) := by
  cases place with
  | none =>
    have hskip := Text.cut?_skip hkey [] []
    rw [List.append_nil] at hskip
    exact hskip
  | some ordinal =>
    have htext : (labelText key (some ordinal)).toList = key.toList ++ (['#'] ++ Text.numeral (ordinal + 1)) := by
      rw [labelText, String.toList_append, String.toList_append, List.append_assoc]
      rfl
    rw [htext]
    exact Text.cut?_append hkey [] _

theorem labelText_inj {a b : String} (ha : '#' ∉ a.toList) (hb : '#' ∉ b.toList) {place other : Option Nat}
    (h : labelText a place = labelText b other) : a = b ∧ place = other := by
  -- no key has a `#`, so the first one in the text, if any, stands behind the key
  have hcut := cut?_labelText ha place
  rw [h, cut?_labelText hb other] at hcut
  cases place with
  | none =>
    obtain rfl := Option.map_eq_none_iff.1 hcut
    exact ⟨h, rfl⟩
  | some ordinal =>
    obtain ⟨ordinal', rfl, hparts⟩ := Option.map_eq_some_iff.1 hcut
    obtain ⟨hkey, hnumeral⟩ := Prod.mk.inj hparts
    have hdigits := congrArg (Text.digits? 0) hnumeral
    rw [Text.digits?_numeral, Text.digits?_numeral] at hdigits
    refine ⟨String.toList_inj.1 hkey.symm, congrArg some ?_⟩
    have hordinals := Option.some.inj hdigits
    omega

theorem IsScope.of_method (h : tree.has NodeKind.isMethod id = true) : tree.IsScope id := by
  obtain ⟨kind, hkind, hmethod⟩ := exists_kind_of_has h
  cases kind with
  | method name descriptor isStatic => exact .method hkind
  | _ => cases hmethod

/-- Scopes in a method other than the method, in preorder. -/
def innerScopes (tree : SyntaxTree) (method : Nat) : List Nat :=
  (tree.descendants method).filter fun id => id != method && tree.isScope id

theorem IsForest.mem_innerScopes (hforest : tree.IsForest) (hmethod : method < tree.size) :
    id ∈ tree.innerScopes method ↔ tree.Below method id ∧ id ≠ method ∧ tree.IsScope id := by
  rw [innerScopes, List.mem_filter, hforest.mem_descendants_iff hmethod, Bool.and_eq_true, bne_iff_ne, isScope_iff]

/-- Place of a scope in a method. -/
def place? (tree : SyntaxTree) (method id : Nat) : Option (Option Nat) :=
  if id = method then some none else ((tree.innerScopes method).findIdx? (· == id)).map some

/-- The scope at a place. -/
def scopeAt? (tree : SyntaxTree) (method : Nat) : Option Nat → Option Nat
  | none => some method
  | some ordinal => (tree.innerScopes method)[ordinal]?

theorem scopeAt?_of_place? {place : Option Nat} (h : tree.place? method id = some place) :
    tree.scopeAt? method place = some id := by
  unfold place? at h
  split at h
  · next hid =>
    obtain rfl := Option.some.inj h
    exact congrArg some hid.symm
  · obtain ⟨ordinal, hordinal, rfl⟩ := Option.map_eq_some_iff.1 h
    obtain ⟨hlt, hfound, -⟩ := List.findIdx?_eq_some_iff_getElem.1 hordinal
    exact List.getElem?_eq_some_iff.2 ⟨hlt, beq_iff_eq.1 hfound⟩

theorem exists_place?_iff :
    (∃ place, tree.place? method id = some place) ↔ id = method ∨ id ∈ tree.innerScopes method := by
  constructor
  · rintro ⟨place, hplace⟩
    have hscope := scopeAt?_of_place? hplace
    cases place with
    | none => exact .inl (Option.some.inj hscope).symm
    | some ordinal => exact .inr (List.mem_of_getElem? hscope)
  · intro h
    unfold place?
    split
    · exact ⟨none, rfl⟩
    · next hne =>
      have hsome : ((tree.innerScopes method).findIdx? (· == id)).isSome = true := by
        rw [List.findIdx?_isSome, List.any_eq_true]
        exact ⟨id, h.resolve_left hne, beq_self_eq_true id⟩
      obtain ⟨ordinal, hordinal⟩ := Option.isSome_iff_exists.1 hsome
      exact ⟨some ordinal, by rw [hordinal]; rfl⟩

/-! ## §3. Labels. -/

theorem blockLabel?_eq (hmethod : tree.enclosingMethod? id = some method) {signature : MethodSignature}
    (hsignature : tree.methodSignature? method = some signature) :
    tree.blockLabel? id = (tree.place? method id).map (labelText signature.key) := by
  simp only [blockLabel?, hmethod, hsignature, Option.bind_eq_bind, Option.bind_some]
  unfold place?
  split
  · rfl
  · change (tree.innerScopes method).findIdx? (· == id) >>= _ = _
    cases (tree.innerScopes method).findIdx? (· == id) <;> rfl

theorem exists_of_blockLabel? {label : String} (h : tree.blockLabel? id = some label) :
    ∃ method signature place, tree.enclosingMethod? id = some method
      ∧ tree.methodSignature? method = some signature ∧ tree.place? method id = some place
      ∧ labelText signature.key place = label := by
  obtain ⟨method, hmethod, hrest⟩ := Option.bind_eq_some_iff.1 h
  obtain ⟨signature, hsignature, -⟩ := Option.bind_eq_some_iff.1 hrest
  rw [blockLabel?_eq hmethod hsignature] at h
  obtain ⟨place, hplace, hlabel⟩ := Option.map_eq_some_iff.1 h
  exact ⟨method, signature, place, hmethod, hsignature, hplace, hlabel⟩

/-- The scopes that have labels. The nearest method around a scope may be further in than the one that is known to
    be in a class, but then it is in that class as well. -/
theorem IsForest.exists_blockLabel?_iff (hforest : tree.IsForest) :
    (∃ label, tree.blockLabel? id = some label)
      ↔ tree.IsScope id ∧ ∃ method, tree.IsClassMethod method ∧ tree.Below method id := by
  constructor
  · rintro ⟨label, hlabel⟩
    obtain ⟨method, signature, place, hmethod, hsignature, hplace, -⟩ := exists_of_blockLabel? hlabel
    have hclass := hforest.exists_methodSignature?_iff.1 ⟨signature, hsignature⟩
    refine ⟨?_, method, hclass, (hforest.nearest_of_ancestor? hmethod).1⟩
    rcases exists_place?_iff.1 ⟨place, hplace⟩ with rfl | hinner
    · exact .of_method hclass.1
    · exact ((hforest.mem_innerScopes (lt_size_of_has hclass.1)).1 hinner).2.2
  · rintro ⟨hscope, outer, ⟨houter, owner, howner, hclass⟩, hbelow⟩
    have hid := hforest.lt_of_below (lt_size_of_has houter) hbelow
    -- the key is that of the nearest method, which is the outer one or below it
    obtain ⟨method, hmethod⟩ := hforest.exists_ancestor? hid hbelow houter
    obtain ⟨hmethodBelow, hisMethod, hnearest⟩ := hforest.nearest_of_ancestor? hmethod
    have hownerMethod : tree.Below owner method := howner.trans (hnearest outer hbelow houter)
    obtain ⟨signature, hsignature⟩ :=
      hforest.exists_methodSignature?_iff.2 ⟨hisMethod, owner, hownerMethod, hclass⟩
    have hinner : id = method ∨ id ∈ tree.innerScopes method := by
      rw [hforest.mem_innerScopes (lt_size_of_has hisMethod)]
      by_cases heq : id = method
      · exact .inl heq
      · exact .inr ⟨hmethodBelow, heq, hscope⟩
    obtain ⟨place, hplace⟩ := exists_place?_iff.2 hinner
    exact ⟨labelText signature.key place, by rw [blockLabel?_eq hmethod hsignature, hplace]; rfl⟩

/-- The keys of the methods of a tree tell them apart, and can be read off their labels. -/
structure DistinctKeys (tree : SyntaxTree) : Prop where
  injective : ∀ a b signature other, tree.methodSignature? a = some signature →
    tree.methodSignature? b = some other → signature.key = other.key → a = b
  plain : ∀ method signature, tree.methodSignature? method = some signature → '#' ∉ signature.key.toList

/-- In a valid tree whose methods have distinct keys without `#`, exactly the scopes in methods of classes have
    labels, and no two of them have the same. -/
theorem blockLabel?_identifies (tree : SyntaxTree) (hvalid : tree.validate = .ok ()) (hkeys : tree.DistinctKeys) :
    (∀ id, (∃ label, tree.blockLabel? id = some label)
        ↔ tree.IsScope id ∧ ∃ method, tree.IsClassMethod method ∧ tree.Below method id)
      ∧ ∀ a b label, tree.blockLabel? a = some label → tree.blockLabel? b = some label → a = b := by
  have hforest := validate_eq_ok_iff.1 hvalid
  refine ⟨fun id => hforest.exists_blockLabel?_iff, ?_⟩
  intro a b label ha hb
  obtain ⟨method, signature, place, -, hsignature, hplace, hlabel⟩ := exists_of_blockLabel? ha
  obtain ⟨method', signature', place', -, hsignature', hplace', hlabel'⟩ := exists_of_blockLabel? hb
  -- both labels have the same key and place, and a place in a method is that of one scope
  obtain ⟨hkey, rfl⟩ := labelText_inj (hkeys.plain method signature hsignature)
    (hkeys.plain method' signature' hsignature') (hlabel.trans hlabel'.symm)
  obtain rfl := hkeys.injective method method' signature signature' hsignature hsignature' hkey
  have hscope := scopeAt?_of_place? hplace
  rw [scopeAt?_of_place? hplace'] at hscope
  exact (Option.some.inj hscope).symm

/-- A method with two blocks, and between them a class that has a method with a block. -/
def nestedMethods : SyntaxTree where
  path := "Run.java"
  lineCount := 12
  nodes :=
    #[⟨.classDecl "a.Run", ⟨1, 12⟩, [1], none⟩, ⟨.method "run" "()V" true, ⟨2, 11⟩, [2], some 0⟩,
      ⟨.block, ⟨2, 11⟩, [3, 4, 8], some 1⟩, ⟨.block, ⟨3, 4⟩, [], some 2⟩,
      ⟨.classDecl "a.Run$1", ⟨5, 8⟩, [5], some 2⟩, ⟨.method "run" "()V" false, ⟨5, 8⟩, [6], some 4⟩,
      ⟨.block, ⟨5, 8⟩, [7], some 5⟩, ⟨.block, ⟨6, 7⟩, [], some 6⟩, ⟨.block, ⟨9, 10⟩, [], some 2⟩]
  roots := [0]

theorem methodSignature?_nestedMethods (hforest : nestedMethods.IsForest) :
    nestedMethods.methodSignature? 1 = some ⟨"a/Run", "run", "()V", true⟩
      ∧ nestedMethods.methodSignature? 5 = some ⟨"a/Run$1", "run", "()V", false⟩ := by
  have houter : nestedMethods.ParentChain 1 [1, 0] := .up (by decide) rfl (.top (by decide) rfl)
  have hinner : nestedMethods.ParentChain 5 [5, 4, 2, 1, 0] :=
    .up (by decide) rfl (.up (by decide) rfl (.up (by decide) rfl houter))
  have hname : nestedMethods.className? 1 = some "a.Run" := by
    rw [className?, enclosingClass?, ancestor?, houter.ancestors_eq hforest]
    rfl
  have hname' : nestedMethods.className? 5 = some "a.Run$1" := by
    rw [className?, enclosingClass?, ancestor?, hinner.ancestors_eq hforest]
    rfl
  rw [methodSignature?, methodSignature?, hname, hname']
  exact ⟨by decide +kernel, by decide +kernel⟩

theorem distinctKeys_nestedMethods (hforest : nestedMethods.IsForest) : nestedMethods.DistinctKeys := by
  obtain ⟨houter, hinner⟩ := methodSignature?_nestedMethods hforest
  have honly : ∀ method signature, nestedMethods.methodSignature? method = some signature →
      method = 1 ∧ signature = ⟨"a/Run", "run", "()V", true⟩
        ∨ method = 5 ∧ signature = ⟨"a/Run$1", "run", "()V", false⟩ := by
    intro method signature hsignature
    have hmethod := (hforest.exists_methodSignature?_iff.1 ⟨signature, hsignature⟩).1
    have hmethods : ∀ id < 9, nestedMethods.has NodeKind.isMethod id = true → id = 1 ∨ id = 5 := by decide
    rcases hmethods method (lt_size_of_has hmethod) hmethod with rfl | rfl
    · exact .inl ⟨rfl, Option.some.inj (hsignature.symm.trans houter)⟩
    · exact .inr ⟨rfl, Option.some.inj (hsignature.symm.trans hinner)⟩
  constructor
  · intro a b signature other ha hb hkey
    rcases honly a signature ha with ⟨rfl, rfl⟩ | ⟨rfl, rfl⟩ <;>
      rcases honly b other hb with ⟨rfl, rfl⟩ | ⟨rfl, rfl⟩
    · rfl
    · exact absurd hkey (by decide +kernel)
    · exact absurd hkey (by decide +kernel)
    · rfl
  · intro method signature hsignature
    rcases honly method signature hsignature with ⟨rfl, rfl⟩ | ⟨rfl, rfl⟩ <;> decide +kernel

theorem below_nestedMethods : ∀ id ∈ [1, 3, 5, 7, 8], nestedMethods.Below 1 id := by
  have hbody : nestedMethods.Below 1 2 := .child .self (by decide)
  have hmethod : nestedMethods.Below 1 5 := .child (.child hbody (by decide : 4 ∈ _)) (by decide)
  have hinner : nestedMethods.Below 1 7 := .child (.child hmethod (by decide : 6 ∈ _)) (by decide)
  simp only [List.forall_mem_cons]
  exact ⟨.self, .child hbody (by decide), hmethod, hinner, .child hbody (by decide), List.forall_mem_nil _⟩

/-- The block of the inner method is in both methods; its label is none of the labels of the outer one. -/
theorem blockLabel?_identifies_nestedMethods :
    nestedMethods.validate = .ok () ∧ nestedMethods.DistinctKeys
      ∧ (∀ id ∈ [1, 3, 5, 7, 8], ∃ label, nestedMethods.blockLabel? id = some label)
      ∧ ∀ id ∈ [1, 3, 5, 8], nestedMethods.blockLabel? id ≠ nestedMethods.blockLabel? 7 := by
  have hvalid : nestedMethods.validate = .ok () := eq_ok_of_toOption (by decide +kernel)
  have hforest := validate_eq_ok_iff.1 hvalid
  have hkeys := distinctKeys_nestedMethods hforest
  obtain ⟨hlabels, hinjective⟩ := blockLabel?_identifies nestedMethods hvalid hkeys
  have hclass : nestedMethods.IsClassMethod 1 := ⟨by decide, 0, .child .self (by decide), by decide⟩
  have hscopes : ∀ id ∈ [1, 3, 5, 7, 8], nestedMethods.isScope id = true := by decide
  have hlabelled : ∀ id ∈ [1, 3, 5, 7, 8], ∃ label, nestedMethods.blockLabel? id = some label := fun id hid =>
    (hlabels id).2 ⟨isScope_iff.1 (hscopes id hid), 1, hclass, below_nestedMethods id hid⟩
  refine ⟨hvalid, hkeys, hlabelled, fun id hid heq => ?_⟩
  obtain ⟨label, hlabel⟩ := hlabelled 7 (by decide)
  have hid7 : id = 7 := hinjective id 7 label (heq.trans hlabel) hlabel
  exact absurd (hid7 ▸ hid) (by decide)

end PatchPresence.SyntaxTree
