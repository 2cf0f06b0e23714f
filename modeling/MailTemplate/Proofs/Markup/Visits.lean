import MailTemplate.Proofs.Markup.Around
import MailTemplate.Proofs.Markup.EmailLayout
import MailTemplate.Proofs.Markup.Operations

/-! Ways through an edited document. As long as no node is put below itself, no way up or down comes
back to where it was, and whoever goes down from the root meets every node there once. A document is
written on such a way down, which ends at its leaves. -/

namespace MailTemplate

namespace Document

def Acyclic (doc : Document) : Prop := ∀ node, ¬ doc.IsAround node node

def IsInside (doc : Document) : NodeId → NodeId → Prop :=
  Relation.ReflTransGen fun node parent => doc.parent? node = some parent

section
variable {doc after : Document}

theorem Acyclic.of_fewer (h : doc.Acyclic)
    (hedge : ∀ {k outer}, after.parent? k = some outer → doc.parent? k = some outer) :
    after.Acyclic :=
  fun node hround => h node (Relation.TransGen.mono (fun _ _ hp => hedge hp) _ _ hround)

/-- One new link makes no circle, if it does not lead to a node from something around it. -/
theorem Acyclic.of_link {node parent : NodeId} (h : doc.Acyclic)
    (hedge : ∀ {k outer}, after.parent? k = some outer →
      doc.parent? k = some outer ∨ k = node ∧ outer = parent)
    (hne : node ≠ parent) (haround : ¬ doc.IsAround node parent) : after.Acyclic := by
  -- a way up in the new document is an old one, or an old one, the new link and an old one
  have hway : ∀ {k outer}, after.IsAround outer k →
      doc.IsAround outer k ∨ doc.IsInside k node ∧ doc.IsInside parent outer := by
    intro k outer hround
    induction hround with
    | single hp =>
      rcases hedge hp with hp | ⟨rfl, rfl⟩
      · exact .inl (.single hp)
      · exact .inr ⟨.refl, .refl⟩
    | tail _ hp ih =>
      rcases ih with hold | ⟨hto, hfrom⟩
      · rcases hedge hp with hp | ⟨rfl, rfl⟩
        · exact .inl (hold.tail hp)
        · exact .inr ⟨hold.to_reflTransGen, .refl⟩
      · rcases hedge hp with hp | ⟨rfl, rfl⟩
        · exact .inr ⟨hto, hfrom.tail hp⟩
        · exact .inr ⟨hto, .refl⟩
  intro k hround
  rcases hway hround with hold | ⟨hto, hfrom⟩
  · exact h k hold
  · rcases Relation.reflTransGen_iff_eq_or_transGen.1 (hfrom.trans hto) with he | hcircle
    · exact hne he
    · exact haround hcircle

end
end Document

namespace Operation

/-- No node is put below itself: none is appended to itself or to a node inside it, and none takes the
place of a node inside it. -/
def IsCareful (doc : Document) : Operation → Prop
  | append parent child => child ≠ parent ∧ ¬ doc.IsAround child parent
  | replace old new => ¬ doc.IsAround new old
  | _ => True

/-- Operations one after the other, each careful in the document that it finds. -/
def AllCareful : Document → List Operation → Prop
  | _, [] => True
  | doc, operation :: operations =>
    operation.IsCareful doc ∧ AllCareful (after doc operation) operations

theorem acyclic_after {doc : Document} {operation : Operation} (h : doc.Meshed) (ha : doc.Acyclic)
    (hc : operation.IsCareful doc) : (after doc operation).Acyclic := by
  cases operation with
  | append parent child =>
    refine ha.of_link (fun hp => ?_) hc.1 hc.2
    rcases parent?_after h hp with hp | he | ⟨old, he, -⟩
    · exact .inl hp
    · cases he
      exact .inr ⟨rfl, rfl⟩
    · cases he
  | replace old new =>
    cases ho : doc.parent? old with
    | none =>
      refine ha.of_fewer fun hp => ?_
      rcases parent?_after h hp with hp | he | ⟨replaced, he, hparent⟩
      · exact hp
      · cases he
      · cases he
        rw [ho] at hparent
        cases hparent
    | some parent =>
      have hne : new ≠ parent := by
        rintro rfl
        exact hc (.single ho)
      have haround : ¬ doc.IsAround new parent := fun hround => hc (.head ho hround)
      refine ha.of_link (fun hp => ?_) hne haround
      rcases parent?_after h hp with hp | he | ⟨replaced, he, hparent⟩
      · exact .inl hp
      · cases he
      · cases he
        exact .inr ⟨rfl, Option.some.inj (hparent.symm.trans ho)⟩
  | create _ | setAttr _ _ _ | take _ =>
    refine ha.of_fewer fun hp => ?_
    rcases parent?_after h hp with hp | he | ⟨_, he, -⟩
    · exact hp
    · cases he
    · cases he

end Operation

namespace Document

theorem acyclic_of_parse {source : Text} {doc : Document} (h : parse source = .ok doc) :
    doc.Acyclic := by
  obtain ⟨tokens, -, rfl⟩ := parse_eq_ok_iff.1 h
  exact fun node hround => lt_irrefl node (lt_of_isAround lt_of_parent?_ofForest hround)

theorem acyclic_foldl_after {doc : Document} {operations : List Operation} (h : doc.Meshed)
    (ha : doc.Acyclic) (hc : Operation.AllCareful doc operations) :
    (operations.foldl Operation.after doc).Acyclic := by
  induction operations generalizing doc with
  | nil => exact ha
  | cons operation operations ih =>
    exact ih (Operation.meshed_after h operation) (Operation.acyclic_after h ha hc.1) hc.2

/-- A node and what is found below it to a depth, where `next` gives the nodes to go on with. -/
def visits (next : NodeId → List NodeId) : Nat → NodeId → List NodeId
  | 0, _ => []
  | depth + 1, node => node :: (next node).flatMap (visits next depth)

def IsShallow (next : NodeId → List NodeId) (depth : Nat) (node : NodeId) : Prop :=
  ∀ way : List NodeId, List.IsChain (fun node child => child ∈ next node) (node :: way) →
    way.length < depth

/-- The nodes that are written inside a node: none inside a leaf. -/
def shown (doc : Document) (node : NodeId) : List NodeId :=
  match doc.data? node with
  | some (.leaf _) => []
  | _ => doc.children node

section
variable {doc : Document} {next : NodeId → List NodeId} {depth : Nat} {node k : NodeId}

theorem below_eq_visits : doc.below depth node = visits doc.children depth node := by
  induction depth generalizing node with
  | zero => rfl
  | succ depth ih =>
    rw [below, visits]
    exact congrArg _ (List.flatMap_congr fun child _ => ih)

theorem shown_sublist (doc : Document) (node : NodeId) :
    (doc.shown node).Sublist (doc.children node) := by
  unfold shown
  split
  · exact List.nil_sublist _
  · exact List.Sublist.refl _

theorem IsShallow.child (h : IsShallow next (depth + 1) node) (hk : k ∈ next node) :
    IsShallow next depth k :=
  fun way hway => Nat.lt_of_succ_lt_succ (h (k :: way) (List.isChain_cons_cons.2 ⟨hk, hway⟩))

theorem IsShallow.pos (h : IsShallow next depth node) : 0 < depth := h [] (List.isChain_singleton _)

theorem mem_visits_iff (h : IsShallow next depth node) :
    k ∈ visits next depth node ↔
      Relation.ReflTransGen (fun node child => child ∈ next node) node k := by
  induction depth generalizing node with
  | zero => exact absurd h.pos (lt_irrefl 0)
  | succ depth ih =>
    rw [visits, List.mem_cons, List.mem_flatMap, Relation.ReflTransGen.cases_head_iff, eq_comm]
    refine or_congr_right (exists_congr fun child => and_congr_right fun hc => ?_)
    exact ih (h.child hc)

theorem reaches_of_mem_visits (hm : k ∈ visits next depth node) :
    Relation.ReflTransGen (fun node child => child ∈ next node) node k := by
  induction depth generalizing node with
  | zero => cases hm
  | succ depth ih =>
    rcases List.mem_cons.1 hm with rfl | hm
    · exact .refl
    · obtain ⟨child, hc, hk⟩ := List.mem_flatMap.1 hm
      exact .head hc (ih hk)

section
variable {parent first second : NodeId}

theorem isInside_of_reaches (h : doc.Meshed)
    (hnext : ∀ node, (next node).Sublist (doc.children node))
    (hr : Relation.ReflTransGen (fun node child => child ∈ next node) parent node) :
    doc.IsInside node parent :=
  Relation.ReflTransGen.swap _ _
    (Relation.ReflTransGen.mono (fun node _ hc => h.parent ((hnext node).subset hc)) _ _ hr)

theorem not_isInside_child (ha : doc.Acyclic) (hp : doc.parent? node = some parent) :
    ¬ doc.IsInside parent node := fun hway => ha parent (.tail' hway hp)

theorem not_isInside_sibling (ha : doc.Acyclic) (hf : doc.parent? first = some parent)
    (hs : doc.parent? second = some parent) (hne : first ≠ second) :
    ¬ doc.IsInside first second := by
  intro hway
  rcases Relation.ReflTransGen.cases_head hway with he | ⟨outer, ho, hway⟩
  · exact hne he
  · rw [Option.some.inj (ho.symm.trans hf)] at hway
    exact not_isInside_child ha hs hway

theorem isInside_or_isInside (hf : doc.IsInside node first) (hs : doc.IsInside node second) :
    doc.IsInside first second ∨ doc.IsInside second first :=
  Relation.ReflTransGen.total_of_right_unique
    (fun _ _ _ hb hc => Option.some.inj (hb.symm.trans hc)) hf hs

variable (h : doc.Meshed) (ha : doc.Acyclic) (hnext : ∀ node, (next node).Sublist (doc.children node))
include h ha hnext

theorem isShallow_size (hn : node < doc.size) : IsShallow next doc.size node := by
  intro way hway
  have htrans : Trans doc.IsAround doc.IsAround doc.IsAround :=
    ⟨fun hab hbc => Relation.TransGen.trans hbc hab⟩
  have haround : (node :: way).Pairwise doc.IsAround := by
    refine List.IsChain.pairwise (hway.imp fun parent child hc => ?_)
    exact .single (h.parent ((hnext parent).subset hc))
  have hnodup : (node :: way).Nodup := by
    refine haround.imp fun {a b} hab he => ?_
    rw [he] at hab
    exact ha b hab
  have hrange : node :: way ⊆ List.range doc.size := by
    intro k hk
    rw [List.mem_range]
    rcases List.mem_cons.1 hk with rfl | hk
    · exact hn
    · obtain ⟨parent, hp, -⟩ := isAround_iff.1 ((List.pairwise_cons.1 haround).1 k hk)
      exact lt_size_of_parent? hp
  have hlength := (List.Nodup.subperm hnodup hrange).length_le
  rwa [List.length_range] at hlength

/-- Without circles, no node is visited twice: it would be inside two siblings. -/
theorem nodup_visits : (visits next depth node).Nodup := by
  induction depth generalizing node with
  | zero => exact List.nodup_nil
  | succ depth ih =>
    have hparent : ∀ {child}, child ∈ next node → doc.parent? child = some node :=
      fun hc => h.parent ((hnext node).subset hc)
    rw [visits, List.nodup_cons, List.nodup_flatMap]
    refine ⟨fun hm => ?_, fun child _ => ih, ?_⟩
    · obtain ⟨child, hc, hk⟩ := List.mem_flatMap.1 hm
      exact not_isInside_child ha (hparent hc)
        (isInside_of_reaches h hnext (reaches_of_mem_visits hk))
    · refine ((h.nodup node).sublist (hnext node)).imp_of_mem fun {first second} hf hs hne => ?_
      intro k hkf hks
      have hfirst := isInside_of_reaches h hnext (reaches_of_mem_visits hkf)
      have hsecond := isInside_of_reaches h hnext (reaches_of_mem_visits hks)
      rcases isInside_or_isInside hfirst hsecond with hway | hway
      · exact not_isInside_sibling ha (hparent hf) (hparent hs) hne hway
      · exact not_isInside_sibling ha (hparent hs) (hparent hf) hne.symm hway

end
end
end Document

namespace Grove

/-- The document writes the grove: its nodes are what they are there, and below an element stand its
children. What is below a leaf is left out. -/
def IsWritten (doc : Document) : Grove → Prop
  | nil => True
  | leaf id l next => doc.data? id = some (.leaf l) ∧ next.IsWritten doc
  | element id e children next =>
    doc.data? id = some (.element e) ∧ doc.children id = children.roots ∧
      children.IsWritten doc ∧ next.IsWritten doc

end Grove

namespace Document

/-- The trees of the given nodes to a depth, as they are written, with the numbers of their nodes. -/
def grove (doc : Document) : Nat → List NodeId → Grove
  | 0, _ => .nil
  | depth + 1, nodes => nodes.foldr (fun node next => match doc.data? node with
    | some (.element e) => .element node e (grove doc depth (doc.children node)) next
    | some (.leaf l) => .leaf node l next
    | _ => next) .nil

section
variable {doc : Document} {depth : Nat} {node : NodeId} {nodes : List NodeId}

theorem grove_cons (depth : Nat) (node : NodeId) (nodes : List NodeId) :
    doc.grove (depth + 1) (node :: nodes) = match doc.data? node with
      | some (.element e) =>
        .element node e (doc.grove depth (doc.children node)) (doc.grove (depth + 1) nodes)
      | some (.leaf l) => .leaf node l (doc.grove (depth + 1) nodes)
      | _ => doc.grove (depth + 1) nodes := rfl

theorem forest_grove (depth : Nat) (nodes : List NodeId) :
    (doc.grove depth nodes).forest = doc.forest depth nodes := by
  induction depth generalizing nodes with
  | zero => rfl
  | succ depth ihd =>
    induction nodes with
    | nil => rfl
    | cons node nodes ih =>
      rw [grove_cons, forest_cons]
      cases doc.data? node with
      | none => exact ih
      | some data =>
        cases data with
        | document => exact ih
        | element e => exact congrArg₂ (Forest.element e) (ihd _) ih
        | leaf l => exact congrArg (Forest.leaf l) ih

theorem Rooted.element_or_leaf (h : doc.Rooted) (ha : doc.Acyclic) (hn : doc.IsAround root node) :
    (∃ e, doc.data? node = some (.element e)) ∨ ∃ l, doc.data? node = some (.leaf l) := by
  obtain ⟨parent, hp, -⟩ := isAround_iff.1 hn
  obtain ⟨n, hget⟩ := exists_getElem? (lt_size_of_parent? hp)
  have hdata := data?_of_getElem? hget
  cases hkind : n.data with
  | document =>
    rw [hkind] at hdata
    rw [h.onlyRoot hdata] at hn
    exact absurd hn (ha root)
  | element e => exact .inl ⟨e, hkind ▸ hdata⟩
  | leaf l => exact .inr ⟨l, hkind ▸ hdata⟩

theorem Meshed.isAround_child (h : doc.Meshed) (hn : doc.IsAround root node) :
    ∀ child ∈ doc.children node, doc.IsAround root child :=
  fun _ hc => .head (h.parent hc) hn

section
variable (h : doc.Rooted) (ha : doc.Acyclic) (hn : ∀ node ∈ nodes, doc.IsAround root node)
include h ha hn

theorem ids_grove : (doc.grove depth nodes).ids = nodes.flatMap (visits doc.shown depth) := by
  induction depth generalizing nodes with
  | zero => exact (List.flatMap_eq_nil_iff.2 fun _ _ => rfl).symm
  | succ depth ihd =>
    induction nodes with
    | nil => rfl
    | cons node nodes ih =>
      have hnode := hn node List.mem_cons_self
      have hrest := ih fun k hk => hn k (List.mem_cons_of_mem _ hk)
      rw [grove_cons, List.flatMap_cons, visits]
      rcases h.element_or_leaf ha hnode with ⟨e, he⟩ | ⟨l, hl⟩
      · have hshown : doc.shown node = doc.children node := by rw [shown, he]
        rw [he, hshown, Grove.ids, hrest, ihd (h.isAround_child hnode), List.cons_append]
      · have hshown : doc.shown node = [] := by rw [shown, hl]
        rw [hl, hshown, Grove.ids, hrest]
        rfl

theorem roots_grove : (doc.grove (depth + 1) nodes).roots = nodes := by
  induction nodes with
  | nil => rfl
  | cons node nodes ih =>
    have hrest := ih fun k hk => hn k (List.mem_cons_of_mem _ hk)
    rw [grove_cons]
    rcases h.element_or_leaf ha (hn node List.mem_cons_self) with ⟨e, he⟩ | ⟨l, hl⟩
    · rw [he, Grove.roots, hrest]
    · rw [hl, Grove.roots, hrest]

theorem isWritten_grove (hd : ∀ node ∈ nodes, IsShallow doc.children depth node) :
    (doc.grove depth nodes).IsWritten doc := by
  induction depth generalizing nodes with
  | zero => trivial
  | succ depth ihd =>
    induction nodes with
    | nil => trivial
    | cons node nodes ih =>
      have hnode := hn node List.mem_cons_self
      have hinside := h.isAround_child hnode
      have hchild : ∀ child ∈ doc.children node, IsShallow doc.children depth child :=
        fun _ hc => (hd node List.mem_cons_self).child hc
      have hrest := ih (fun k hk => hn k (List.mem_cons_of_mem _ hk))
        fun k hk => hd k (List.mem_cons_of_mem _ hk)
      rw [grove_cons]
      rcases h.element_or_leaf ha hnode with ⟨e, he⟩ | ⟨l, hl⟩
      · rw [he]
        refine ⟨he, ?_, ihd hinside hchild, hrest⟩
        -- an element with children is not at the last depth
        cases depth with
        | zero =>
          have hnone : doc.children node = [] :=
            List.eq_nil_iff_forall_not_mem.2 fun child hc => absurd (hchild child hc).pos (lt_irrefl 0)
          rw [hnone]
          rfl
        | succ depth => exact (roots_grove h ha hinside).symm
      · rw [hl]
        exact ⟨hl, hrest⟩

end

/-- The list holds exactly the nodes of the kind, each of them once. -/
def Lists (nodes : List NodeId) (p : NodeId → Prop) : Prop :=
  nodes.Nodup ∧ ∀ node, node ∈ nodes ↔ p node

theorem lists_visits {next : NodeId → List NodeId} (h : doc.Meshed) (ha : doc.Acyclic)
    (hnext : ∀ node, (next node).Sublist (doc.children node)) (hn : node < doc.size) :
    Lists (visits next doc.size node)
      (Relation.ReflTransGen (fun node child => child ∈ next node) node) :=
  ⟨nodup_visits h ha hnext, fun _ => mem_visits_iff (isShallow_size h ha hnext hn)⟩

theorem lists_below (h : doc.Rooted) (ha : doc.Acyclic) :
    Lists (doc.below doc.size root) (doc.Reaches root) := by
  rw [below_eq_visits]
  exact lists_visits h.toMeshed ha (fun node => List.Sublist.refl _) (lt_size_of_data? h.rootData)

theorem lists_elements (h : doc.Rooted) (ha : doc.Acyclic) :
    Lists doc.elements fun node => doc.Reaches root node ∧ (doc.element? node).isSome = true := by
  obtain ⟨hnodup, hmem⟩ := lists_below h ha
  refine ⟨hnodup.filter _, fun node => ?_⟩
  rw [elements, List.mem_filter, hmem]

theorem exists_isWritten (h : doc.Rooted) (ha : doc.Acyclic) :
    ∃ written : Grove, doc.serialize = written.forest.render ∧ written.IsWritten doc ∧
      written.roots = doc.children root ∧
      Lists (root :: written.ids)
        (Relation.ReflTransGen (fun node child => child ∈ doc.shown node) root) := by
  have hroot : root < doc.size := lt_size_of_data? h.rootData
  obtain ⟨size, hsize⟩ := Nat.exists_eq_succ_of_ne_zero (Nat.ne_zero_of_lt hroot)
  have hn : ∀ node ∈ doc.children root, doc.IsAround root node :=
    fun node hc => .single (h.parent hc)
  have hshallow : ∀ node ∈ doc.children root, IsShallow doc.children doc.size node := fun node hc =>
    isShallow_size h.toMeshed ha (fun _ => List.Sublist.refl _) (h.toMeshed.lt_size hc).2
  have hshown : doc.shown root = doc.children root := by rw [shown, h.rootData]
  have hids : root :: (doc.grove doc.size (doc.children root)).ids =
      visits doc.shown (doc.size + 1) root := by rw [visits, hshown, ids_grove h ha hn]
  refine ⟨doc.grove doc.size (doc.children root), ?_, isWritten_grove h ha hn hshallow, ?_, ?_⟩
  · rw [serialize, toForest, forest_grove]
  · rw [hsize]
    exact roots_grove h ha hn
  · rw [hids]
    refine ⟨nodup_visits h.toMeshed ha doc.shown_sublist, fun node => mem_visits_iff fun way hway => ?_⟩
    exact Nat.lt_succ_of_lt (isShallow_size h.toMeshed ha doc.shown_sublist hroot way hway)

/-- Whatever operations are made on a document that was read, its links agree in both directions and
lead to nodes that are there. As long as no node is put below itself, there are no circles; all nodes
below the root are met once on the way through them, and what is written is written once. -/
theorem links_foldl_after {source : Text} (h : parse source = .ok doc)
    (operations : List Operation) :
    let final := operations.foldl Operation.after doc
    (∀ parent child, final.parent? child = some parent ↔ child ∈ final.children parent) ∧
      (∀ node, (final.children node).Nodup) ∧
      (∀ parent child, child ∈ final.children parent → parent < final.size ∧ child < final.size) ∧
      (Operation.AllCareful doc operations →
        final.Acyclic ∧
        Lists (final.below final.size root) (final.Reaches root) ∧
        Lists final.elements
          (fun node => final.Reaches root node ∧ (final.element? node).isSome = true) ∧
        ∃ written : Grove, final.serialize = written.forest.render ∧ written.IsWritten final ∧
          written.roots = final.children root ∧
          Lists (root :: written.ids)
            (Relation.ReflTransGen (fun node child => child ∈ final.shown node) root)) := by
  intro final
  have hrooted : final.Rooted := rooted_foldl_after (rooted_of_parse h) operations
  refine ⟨fun parent child => hrooted.toMeshed.parent?_eq_some_iff, hrooted.nodup,
    fun parent child hc => hrooted.toMeshed.lt_size hc, fun hcareful => ?_⟩
  have hacyclic : final.Acyclic :=
    acyclic_foldl_after (rooted_of_parse h).toMeshed (acyclic_of_parse h) hcareful
  exact ⟨hacyclic, lists_below hrooted hacyclic, lists_elements hrooted hacyclic,
    exists_isWritten hrooted hacyclic⟩

theorem not_isAround_of_parent?_eq_none {outer : NodeId} (hp : doc.parent? node = none) :
    ¬ doc.IsAround outer node := by
  rw [isAround_iff]
  rintro ⟨parent, hparent, -⟩
  rw [hp] at hparent
  cases hparent

theorem not_isAround_of_parent?_eq_some {outer parent : NodeId} (hp : doc.parent? node = some parent)
    (htop : doc.parent? parent = none) (hne : outer ≠ parent) : ¬ doc.IsAround outer node := by
  rw [isAround_iff]
  rintro ⟨found, hfound, hround⟩
  rw [Option.some.inj (hfound.symm.trans hp)] at hround
  exact hround.elim hne (not_isAround_of_parent?_eq_none htop)

/-- A new element takes up a text, and then the place of the element that it stood beside. -/
theorem links_foldl_after_wrapped :
    let source := "<a>b</a>c".toList
    let operations := [Operation.create ['x'], .append 4 3, .replace 1 4]
    ∃ doc, parse source = .ok doc ∧
      let final := operations.foldl Operation.after doc
      Operation.AllCareful doc operations ∧ final.serialize = "<x>c</x>".toList ∧
        final.Acyclic ∧
        Lists (final.below final.size root) (final.Reaches root) ∧
        Lists final.elements
          (fun node => final.Reaches root node ∧ (final.element? node).isSome = true) ∧
        ∃ written : Grove, final.serialize = written.forest.render ∧ written.IsWritten final ∧
          written.roots = final.children root ∧
          Lists (root :: written.ids)
            (Relation.ReflTransGen (fun node child => child ∈ final.shown node) root) := by
  intro source operations
  let doc := ofForest (.element ⟨['a'], [], false⟩ (.leaf (.text ['b']) .nil)
    (.leaf (.text ['c']) .nil))
  have h : parse source = .ok doc := by decide +kernel
  have hcareful : Operation.AllCareful doc operations := by
    refine ⟨trivial, ⟨by decide, not_isAround_of_parent?_eq_none rfl⟩, ?_, trivial⟩
    exact not_isAround_of_parent?_eq_some (show parent? _ 1 = some root from rfl) rfl (by decide)
  obtain ⟨-, -, -, hrest⟩ := links_foldl_after h operations
  exact ⟨doc, h, hcareful, by decide +kernel, hrest hcareful⟩

/-- An element that was put below a text is found among the elements, but it is not written. -/
theorem serialize_below_text :
    ∃ doc, parse "a<b></b>".toList = .ok doc ∧ Operation.AllCareful doc [.append 1 2] ∧
      let final := [Operation.append 1 2].foldl Operation.after doc
      final.Reaches root 2 ∧ final.elements = [2] ∧ final.serialize = ['a'] := by
  let doc := ofForest (.leaf (.text ['a']) (.element ⟨['b'], [], false⟩ .nil .nil))
  have h : parse "a<b></b>".toList = .ok doc := by decide +kernel
  have hcareful : Operation.AllCareful doc [.append 1 2] := by
    refine ⟨⟨by decide, ?_⟩, trivial⟩
    exact not_isAround_of_parent?_eq_some (show doc.parent? 1 = some root from rfl) rfl (by decide)
  refine ⟨doc, h, hcareful, ?_, by decide +kernel, by decide +kernel⟩
  have htext : 1 ∈ (Operation.after doc (.append 1 2)).children root := by decide +kernel
  have hbelow : 2 ∈ (Operation.after doc (.append 1 2)).children 1 := by decide +kernel
  exact .tail (.single htext) hbelow

end
end Document
end MailTemplate
