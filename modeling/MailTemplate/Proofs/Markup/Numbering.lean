import MailTemplate.Markup.Document
import Mathlib.Data.List.Infix

/-! Numbered forests. A document holds a forest where its nodes, from some number on, are the nodes
of the forest in document order; the forest can then be read off the document again. -/

namespace MailTemplate
namespace Forest

/-- The numbers of the topmost nodes, when the nodes are numbered in document order from `first`. -/
def ids (first : NodeId) : Forest → List NodeId
  | nil => []
  | leaf _ next => first :: next.ids (first + 1)
  | element _ children next => first :: next.ids (first + 1 + children.size)

/-- The nodes in document order, numbered from `first`, below the node `parent`. -/
def nodes (parent first : NodeId) : Forest → List Node
  | nil => []
  | leaf l next => ⟨some parent, [], .leaf l⟩ :: next.nodes parent (first + 1)
  | element e children next =>
    ⟨some parent, children.ids (first + 1), .element e⟩ ::
      (children.nodes first (first + 1) ++ next.nodes parent (first + 1 + children.size))

@[simp] theorem length_nodes (forest : Forest) (parent first : NodeId) :
    (forest.nodes parent first).length = forest.size := by
  induction forest generalizing parent first with
  | nil => rfl
  | leaf _ _ ih => simp [nodes, size, ih, Nat.add_comm]
  | element _ _ _ ihc ihn =>
    simp [nodes, size, ihc, ihn]
    omega

end Forest

namespace Document

def ofForest (forest : Forest) : Document :=
  ⟨(⟨none, forest.ids 1, .document⟩ :: forest.nodes root 1).toArray⟩

/-- The nodes stand in the document, one after the other, from the number `first` on. -/
def Has (doc : Document) (first : NodeId) (nodes : List Node) : Prop :=
  nodes <+: doc.nodes.toList.drop first

section
variable {doc : Document} {first : NodeId}

@[simp] theorem has_nil : doc.Has first [] := List.nil_prefix

theorem has_cons {node : Node} {nodes : List Node} :
    doc.Has first (node :: nodes) ↔ doc.nodes[first]? = some node ∧ doc.Has (first + 1) nodes := by
  unfold Has
  by_cases hl : first < doc.nodes.toList.length
  · rw [List.drop_eq_getElem_cons hl, List.cons_prefix_cons, ← Array.getElem?_toList,
      List.getElem?_eq_getElem hl, Option.some.injEq, eq_comm]
  · have hd : doc.nodes.toList.drop first = [] := List.drop_eq_nil_of_le (Nat.le_of_not_lt hl)
    have hg : doc.nodes[first]? = none := by
      rw [← Array.getElem?_toList]
      exact List.getElem?_eq_none (Nat.le_of_not_lt hl)
    simp [hd, hg]

theorem has_append {front back : List Node} :
    doc.Has first (front ++ back) ↔ doc.Has first front ∧ doc.Has (first + front.length) back := by
  induction front generalizing first with
  | nil => simp
  | cons node front ih =>
    rw [List.cons_append, has_cons, has_cons, ih, List.length_cons, and_assoc,
      Nat.add_right_comm first 1, Nat.add_assoc first]

theorem has_ofForest (forest : Forest) :
    (ofForest forest).Has 0 (⟨none, forest.ids 1, .document⟩ :: forest.nodes root 1) := by
  simp [Has, ofForest]

theorem forest_cons (depth : Nat) (node : NodeId) (nodes : List NodeId) :
    doc.forest (depth + 1) (node :: nodes) = match doc.data? node with
      | some (.element e) =>
        .element e (doc.forest depth (doc.children node)) (doc.forest (depth + 1) nodes)
      | some (.leaf l) => .leaf l (doc.forest (depth + 1) nodes)
      | _ => doc.forest (depth + 1) nodes := rfl

theorem data?_of_getElem? {node : NodeId} {n : Node} (h : doc.nodes[node]? = some n) :
    doc.data? node = some n.data := by simp [data?, h]

theorem children_of_getElem? {node : NodeId} {n : Node} (h : doc.nodes[node]? = some n) :
    doc.children node = n.children := by simp [children, h]

theorem parent?_of_getElem? {node : NodeId} {n : Node} (h : doc.nodes[node]? = some n) :
    doc.parent? node = n.parent := by simp [parent?, h]

theorem forest_ids {forest : Forest} {parent : NodeId} {depth : Nat}
    (h : doc.Has first (forest.nodes parent first)) (hd : forest.size ≤ depth) :
    doc.forest depth (forest.ids first) = forest := by
  induction forest generalizing parent first depth with
  | nil => cases depth <;> rfl
  | leaf l next ih =>
    obtain ⟨hn, hr⟩ := has_cons.1 h
    rw [Forest.size] at hd
    obtain ⟨depth, rfl⟩ : ∃ d, depth = d + 1 := ⟨depth - 1, by omega⟩
    rw [Forest.ids, forest_cons, data?_of_getElem? hn]
    exact congrArg (Forest.leaf l) (ih hr (by omega))
  | element e children next ihc ihn =>
    obtain ⟨hn, hr⟩ := has_cons.1 h
    obtain ⟨hc, hr⟩ := has_append.1 hr
    rw [Forest.length_nodes] at hr
    rw [Forest.size] at hd
    obtain ⟨depth, rfl⟩ : ∃ d, depth = d + 1 := ⟨depth - 1, by omega⟩
    rw [Forest.ids, forest_cons, data?_of_getElem? hn, children_of_getElem? hn]
    exact congrArg₂ (Forest.element e) (ihc hc (by omega)) (ihn hr (by omega))

end

@[simp] theorem size_ofForest (forest : Forest) : (ofForest forest).size = forest.size + 1 := by
  simp [size, ofForest]

@[simp] theorem toForest_ofForest (forest : Forest) : (ofForest forest).toForest = forest := by
  obtain ⟨hr, hn⟩ := has_cons.1 (has_ofForest forest)
  have hroot : (ofForest forest).children root = forest.ids 1 := children_of_getElem? hr
  unfold toForest
  rw [hroot]
  exact forest_ids hn (by simp)

@[simp] theorem serialize_ofForest (forest : Forest) :
    (ofForest forest).serialize = forest.render := by simp [serialize]

end Document
end MailTemplate
