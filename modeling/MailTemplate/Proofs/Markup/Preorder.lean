import MailTemplate.Proofs.Markup.Around
import MailTemplate.Proofs.Markup.Operations

/-! Numbers in document order. In a document that was read, what is below a node has the numbers right
behind its own, without a gap: the number of the next sibling is the first one that is not below it. -/

namespace MailTemplate

def Forest.IsFilled : Forest → Prop
  | .nil => True
  | .leaf l next => l ≠ .text [] ∧ next.IsFilled
  | .element e children next =>
    (e.isLeaf = true → children = .nil) ∧ children.IsFilled ∧ next.IsFilled

theorem Forest.isFilled_ofContent (content : Text) : (ofContent content).IsFilled := by
  unfold ofContent
  split
  · trivial
  · next hn => exact ⟨fun he => hn (Leaf.text.inj he), trivial⟩

theorem Forest.WellFormed.isFilled {forest : Forest} (h : forest.WellFormed) : forest.IsFilled := by
  induction forest with
  | nil => trivial
  | leaf l next ih =>
    refine ⟨?_, ih h.2⟩
    rintro rfl
    exact h.1.1 rfl
  | element e children next ihc ihn =>
    obtain ⟨-, hchildren, hnext⟩ := h
    split at hchildren
    · obtain ⟨content, rfl, hholds⟩ := hchildren
      refine ⟨fun hl => ?_, isFilled_ofContent content, ihn hnext⟩
      rw [Element.Holds, if_pos hl] at hholds
      rw [hholds]
      rfl
    · next hl =>
      rw [Bool.or_eq_true, not_or] at hl
      exact ⟨fun h => absurd h hl.1, ihc hchildren, ihn hnext⟩

theorem Forest.mem_ids_bounds {forest : Forest} {first id : Nat} (h : id ∈ forest.ids first) :
    first ≤ id ∧ id < first + forest.size := by
  have hm := Grove.roots_subset_ids (Grove.ofForest first forest)
    (by rwa [Grove.roots_ofForest] : id ∈ (Grove.ofForest first forest).roots)
  rwa [Grove.ids_ofForest, List.mem_range'_1] at hm

theorem Forest.eq_of_ids_eq_cons {forest : Forest} {first id : Nat} {after : List NodeId}
    (h : forest.ids first = id :: after) : id = first := by
  cases forest with
  | nil => cases h
  | leaf _ _ => exact (List.cons.inj h).1.symm
  | element _ _ _ => exact (List.cons.inj h).1.symm

theorem Forest.pairwise_ids (forest : Forest) (first : Nat) :
    (forest.ids first).Pairwise (· < ·) := by
  have hsub := Grove.roots_sublist_ids (Grove.ofForest first forest)
  rw [Grove.roots_ofForest, Grove.ids_ofForest] at hsub
  exact List.Pairwise.sublist hsub List.pairwise_lt_range'

namespace Document

/-- What is below a node is a forest, numbered in document order from the number behind it. -/
structure HoldsBelow (doc : Document) (node : NodeId) (inside : Forest) : Prop where
  children : doc.children node = inside.ids (node + 1)
  nodes : doc.Has (node + 1) (inside.nodes node (node + 1))

/-- A node that is no empty text, and that has children only if it is the root or an element that
waits for content. -/
def FilledAt (doc : Document) (node : NodeId) : Prop :=
  match doc.data? node with
  | some (.leaf l) => l ≠ .text [] ∧ doc.children node = []
  | some (.element e) => e.isLeaf = true → doc.children node = []
  | _ => True

/-- A document that is one tree with the root on top, in which the links agree and the nodes are
numbered in document order. -/
structure InOrder (doc : Document) : Prop extends doc.Rooted where
  rootParent : doc.parent? root = none
  attached : ∀ {node}, node < doc.size → node ≠ root → doc.IsAround root node
  increasing : ∀ node, (doc.children node).Pairwise (· < ·)
  stretch : ∀ {node}, node < doc.size →
    ∃ stop, ∀ inner, doc.IsAround node inner ↔ node < inner ∧ inner < stop
  siblings : ∀ {parent node next before after},
    doc.children parent = before ++ node :: next :: after →
      ∀ inner, doc.IsAround node inner ↔ node < inner ∧ inner < next
  below_root : doc.below doc.size root = List.range doc.size
  elements_eq : doc.elements = (List.range doc.size).filter fun node => (doc.element? node).isSome

section
variable {doc : Document} {node inner first parent next : Nat} {forest inside : Forest}
  {before after : List NodeId}

theorem holdsBelow_root (forest : Forest) : (ofForest forest).HoldsBelow root forest := by
  obtain ⟨hr, hn⟩ := has_cons.1 (has_ofForest forest)
  exact ⟨children_of_getElem? hr, hn⟩

/-- Every node of a forest has its own content below it, inside the numbers of the forest. -/
theorem exists_holdsBelow (h : doc.Has first (forest.nodes parent first))
    (hm : node ∈ (Grove.ofForest first forest).ids) :
    ∃ inside, doc.HoldsBelow node inside ∧ node + 1 + inside.size ≤ first + forest.size := by
  induction forest generalizing first parent with
  | nil => cases hm
  | leaf l rest ih =>
    obtain ⟨hn, hr⟩ := has_cons.1 h
    rcases List.mem_cons.1 hm with rfl | hm
    · refine ⟨.nil, ⟨children_of_getElem? hn, has_nil⟩, ?_⟩
      simp only [Forest.size]
      omega
    · obtain ⟨inside, hinside, hle⟩ := ih hr hm
      exact ⟨inside, hinside, by rw [Forest.size]; omega⟩
  | element e children rest ihc ihn =>
    obtain ⟨hn, hr⟩ := has_cons.1 h
    obtain ⟨hc, hr⟩ := has_append.1 hr
    rw [Forest.length_nodes] at hr
    rcases List.mem_cons.1 hm with rfl | hm
    · exact ⟨children, ⟨children_of_getElem? hn, hc⟩, by rw [Forest.size]; omega⟩
    · rcases List.mem_append.1 hm with hm | hm
      · obtain ⟨inside, hinside, hle⟩ := ihc hc hm
        exact ⟨inside, hinside, by rw [Forest.size]; omega⟩
      · obtain ⟨inside, hinside, hle⟩ := ihn hr hm
        exact ⟨inside, hinside, by rw [Forest.size]; omega⟩

theorem exists_holdsBelow_next (h : doc.Has first (forest.nodes parent first))
    (hids : forest.ids first = before ++ node :: next :: after) :
    ∃ inside, doc.HoldsBelow node inside ∧ next = node + 1 + inside.size := by
  induction forest generalizing first before with
  | nil => exact absurd hids.symm (by simp [Forest.ids])
  | leaf l rest ih =>
    obtain ⟨hn, hr⟩ := has_cons.1 h
    cases before with
    | nil =>
      obtain ⟨rfl, hrest⟩ := List.cons.inj hids
      exact ⟨.nil, ⟨children_of_getElem? hn, has_nil⟩, Forest.eq_of_ids_eq_cons hrest⟩
    | cons _ before => exact ih hr (List.cons.inj hids).2
  | element e children rest _ ih =>
    obtain ⟨hn, hr⟩ := has_cons.1 h
    obtain ⟨hc, hr⟩ := has_append.1 hr
    rw [Forest.length_nodes] at hr
    cases before with
    | nil =>
      obtain ⟨rfl, hrest⟩ := List.cons.inj hids
      exact ⟨children, ⟨children_of_getElem? hn, hc⟩, Forest.eq_of_ids_eq_cons hrest⟩
    | cons _ before => exact ih hr (List.cons.inj hids).2

theorem HoldsBelow.isAround_iff (hdoc : doc.Meshed) (h : doc.HoldsBelow node inside) :
    doc.IsAround node inner ↔ node < inner ∧ inner < node + 1 + inside.size := by
  have hstands := Grove.stands_ofForest h.nodes
  constructor
  · intro haround
    induction haround using Relation.TransGen.head_induction_on with
    | single hp =>
      have hc := hdoc.child hp
      rw [h.children] at hc
      have hbounds := Forest.mem_ids_bounds hc
      omega
    | @head inner outer hp _ ih =>
      have hm : outer ∈ (Grove.ofForest (node + 1) inside).ids := by
        rw [Grove.ids_ofForest, List.mem_range'_1]
        omega
      obtain ⟨content, hcontent, hle⟩ := exists_holdsBelow h.nodes hm
      have hc := hdoc.child hp
      rw [hcontent.children] at hc
      have hbounds := Forest.mem_ids_bounds hc
      omega
  · rintro ⟨hlt, hle⟩
    induction inner using Nat.strongRecOn with
    | ind inner ih =>
      have hm : inner ∈ (Grove.ofForest (node + 1) inside).ids := by
        rw [Grove.ids_ofForest, List.mem_range'_1]
        omega
      rcases hstands.exists_parent hm with hr | ⟨outer, houter, hc⟩
      · rw [Grove.roots_ofForest, ← h.children] at hr
        exact .single (hdoc.parent hr)
      · obtain ⟨content, hcontent, -⟩ := exists_holdsBelow h.nodes houter
        rw [Grove.ids_ofForest, List.mem_range'_1] at houter
        have hbounds := Forest.mem_ids_bounds (hcontent.children ▸ hc)
        have haround := ih outer (by omega) (by omega) (by omega)
        exact Document.isAround_iff.2 ⟨outer, hdoc.parent hc, .inr haround⟩

theorem filledAt_of_isFilled (hf : forest.IsFilled) (h : doc.Has first (forest.nodes parent first))
    (hm : node ∈ (Grove.ofForest first forest).ids) : doc.FilledAt node := by
  induction forest generalizing first parent with
  | nil => cases hm
  | leaf l rest ih =>
    obtain ⟨hn, hr⟩ := has_cons.1 h
    rcases List.mem_cons.1 hm with rfl | hm
    · rw [FilledAt, data?_of_getElem? hn]
      exact ⟨hf.1, children_of_getElem? hn⟩
    · exact ih hf.2 hr hm
  | element e children rest ihc ihn =>
    obtain ⟨hleaf, hchildren, hrest⟩ := hf
    obtain ⟨hn, hr⟩ := has_cons.1 h
    obtain ⟨hc, hr⟩ := has_append.1 hr
    rw [Forest.length_nodes] at hr
    rcases List.mem_cons.1 hm with rfl | hm
    · rw [FilledAt, data?_of_getElem? hn]
      intro hl
      rw [children_of_getElem? hn, hleaf hl]
      rfl
    · rcases List.mem_append.1 hm with hm | hm
      · exact ihc hchildren hc hm
      · exact ihn hrest hr hm

theorem exists_holdsBelow_ofForest (h : node < (ofForest forest).size) :
    ∃ inside, (ofForest forest).HoldsBelow node inside := by
  have hroot := holdsBelow_root forest
  by_cases hn : node = root
  · exact ⟨forest, hn ▸ hroot⟩
  · obtain ⟨inside, hinside, -⟩ := exists_holdsBelow hroot.nodes (mem_ids_of_lt_size h hn)
    exact ⟨inside, hinside⟩

theorem filledAt_ofForest (hf : forest.IsFilled) (node : NodeId) : (ofForest forest).FilledAt node := by
  by_cases hn : node < (ofForest forest).size
  · by_cases hne : node = root
    · rw [hne, FilledAt, (rooted_ofForest forest).rootData]
      trivial
    · exact filledAt_of_isFilled hf (holdsBelow_root forest).nodes (mem_ids_of_lt_size hn hne)
  · have hdata : (ofForest forest).data? node = none := by
      rw [data?, getElem?_eq_none (Nat.le_of_not_lt hn)]
      rfl
    rw [FilledAt, hdata]
    trivial

theorem inOrder_ofForest (forest : Forest) : (ofForest forest).InOrder := by
  have hrooted := rooted_ofForest forest
  have hroot := holdsBelow_root forest
  have hbelow := below_root_ofForest forest
  refine ⟨hrooted, rfl, fun {node} hn hne => ?_, fun node => ?_, fun {node} hn => ?_,
    fun {parent node next before after} hc inner => ?_, hbelow, ?_⟩
  · rw [hroot.isAround_iff hrooted.toMeshed]
    rw [size_ofForest] at hn
    exact ⟨Nat.pos_of_ne_zero hne, by simp only [root]; omega⟩
  · by_cases hn : node < (ofForest forest).size
    · obtain ⟨inside, hinside⟩ := exists_holdsBelow_ofForest hn
      rw [hinside.children]
      exact inside.pairwise_ids _
    · rw [children_eq_nil_of_le (Nat.le_of_not_lt hn)]
      exact List.Pairwise.nil
  · obtain ⟨inside, hinside⟩ := exists_holdsBelow_ofForest hn
    exact ⟨node + 1 + inside.size, fun inner => hinside.isAround_iff hrooted.toMeshed⟩
  · have hm : node ∈ (ofForest forest).children parent := by
      rw [hc]
      exact List.mem_append_right _ List.mem_cons_self
    have hparent := lt_size_of_mem_children hm
    obtain ⟨outside, houtside⟩ := exists_holdsBelow_ofForest hparent
    obtain ⟨inside, hinside, rfl⟩ :=
      exists_holdsBelow_next houtside.nodes (houtside.children.symm.trans hc)
    exact hinside.isAround_iff hrooted.toMeshed
  · rw [elements, hbelow]

end

/-- A text that can be read gives one tree, numbered in document order: everything below a node comes
behind it, and before its next sibling. No text of the tree is empty, and leaves, void elements and
those that close themselves have no children. After each token the open elements are the last ones on
their levels, so the next node goes to the end of the document. -/
theorem inOrder_of_parse {source : Text} {doc : Document} (h : parse source = .ok doc) :
    doc.InOrder ∧ (∀ node, doc.FilledAt node) ∧
      ∃ tokens, Token.all source = .ok tokens ∧ ∀ front, front <+: tokens →
        let reader := front.foldl Reader.step .start
        reader.doc.IsRightmost reader.opened := by
  have hfilled := (wellFormed_of_parse h).isFilled
  have hstart : Reader.start.doc.IsRightmost Reader.start.opened := Nat.one_pos
  obtain ⟨tokens, htokens, rfl⟩ := parse_eq_ok_iff.1 h
  rw [toForest_ofForest] at hfilled
  exact ⟨inOrder_ofForest _, filledAt_ofForest hfilled, tokens, htokens,
    fun front _ => hstart.foldl_step front⟩

/-- A closing tag that closes two elements, a stray one, raw text, and elements without content. -/
theorem inOrder_of_parse_soup :
    ∃ doc, parse "<p>a<b>c<br></p></i><style>d</style><x/>".toList = .ok doc ∧ doc.InOrder ∧
      doc.children root = [1, 6, 8] ∧ doc.elements = [1, 3, 5, 6, 8] := by
  have h : parse "<p>a<b>c<br></p></i><style>d</style><x/>".toList = .ok (.ofForest
      (.element ⟨['p'], [], false⟩ (.leaf (.text ['a']) (.element ⟨['b'], [], false⟩
        (.leaf (.text ['c']) (.element ⟨"br".toList, [], false⟩ .nil .nil)) .nil))
      (.element ⟨"style".toList, [], false⟩ (.leaf (.text ['d']) .nil)
        (.element ⟨['x'], [], true⟩ .nil .nil)))) := by decide +kernel
  exact ⟨_, h, (inOrder_of_parse h).1, by decide +kernel, by decide +kernel⟩

end Document
end MailTemplate
