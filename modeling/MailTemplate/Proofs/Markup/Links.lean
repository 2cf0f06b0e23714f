import MailTemplate.Markup.CustomTag
import Mathlib.Data.List.Nodup

/-! Edits seen through the links of a document: which node is the parent of which, which children a
node has, and what the nodes are. Every edit is described by what it does to these three. -/

namespace MailTemplate
namespace Document

def setParent (doc : Document) (node : NodeId) (parent : Option NodeId) : Document :=
  doc.update node ({ · with parent := parent })

def setChildren (doc : Document) (node : NodeId) (f : List NodeId → List NodeId) : Document :=
  doc.update node fun n => { n with children := f n.children }

/-- The document with one node in the place of another below `parent`. -/
def place (doc : Document) (parent old new : NodeId) : Document :=
  ((doc.setChildren parent (·.replace old new)).setParent new (some parent)).setParent old none

def add (doc : Document) (element : Element) : Document :=
  ⟨doc.nodes.push ⟨none, [], .element element⟩⟩

section
variable (doc : Document) (node k : NodeId)

theorem getElem?_update (f : Node → Node) :
    (doc.update node f).nodes[k]? = if node = k then doc.nodes[k]?.map f else doc.nodes[k]? :=
  Array.getElem?_modify

theorem getElem?_add (element : Element) :
    (doc.add element).nodes[k]? =
      if k = doc.size then some ⟨none, [], .element element⟩ else doc.nodes[k]? :=
  Array.getElem?_push

variable {doc node k}

theorem getElem?_eq_none (h : doc.size ≤ k) : doc.nodes[k]? = none := Array.getElem?_eq_none h

theorem children_eq_nil_of_le (h : doc.size ≤ k) : doc.children k = [] := by
  rw [children, getElem?_eq_none h]
  rfl

theorem parent?_eq_none_of_le (h : doc.size ≤ k) : doc.parent? k = none := by
  rw [parent?, getElem?_eq_none h]
  rfl

theorem exists_getElem? (h : k < doc.size) : ∃ n, doc.nodes[k]? = some n :=
  ⟨_, Array.getElem?_eq_getElem h⟩

theorem lt_size_of_data? {data : NodeData} (h : doc.data? k = some data) : k < doc.size := by
  by_contra hk
  have hn := getElem?_eq_none (Nat.le_of_not_lt hk)
  simp [data?, hn] at h

theorem lt_size_of_parent? {parent : NodeId} (h : doc.parent? k = some parent) : k < doc.size := by
  by_contra hk
  have hn := getElem?_eq_none (Nat.le_of_not_lt hk)
  simp [parent?, hn] at h

theorem lt_size_of_mem_children {child : NodeId} (h : child ∈ doc.children k) : k < doc.size := by
  by_contra hk
  have hn := getElem?_eq_none (Nat.le_of_not_lt hk)
  simp [children, hn] at h

theorem element?_eq_some_iff {element : Element} :
    doc.element? k = some element ↔ doc.data? k = some (.element element) := by
  unfold element?
  split
  · next e he => simp [he]
  · next hne =>
    constructor
    · intro h
      cases h
    · intro h
      exact absurd h (hne element)

@[simp] theorem size_update (f : Node → Node) : (doc.update node f).size = doc.size :=
  Array.size_modify

@[simp] theorem size_setParent (parent : Option NodeId) :
    (doc.setParent node parent).size = doc.size := size_update _

@[simp] theorem size_setChildren (f : List NodeId → List NodeId) :
    (doc.setChildren node f).size = doc.size := size_update _

@[simp] theorem size_place (parent old new : NodeId) :
    (doc.place parent old new).size = doc.size := by simp [place]

@[simp] theorem size_add (element : Element) : (doc.add element).size = doc.size + 1 :=
  Array.size_push _

@[simp] theorem data?_setParent (parent : Option NodeId) :
    (doc.setParent node parent).data? k = doc.data? k := by
  by_cases h : node = k <;> simp [setParent, data?, getElem?_update, h, Function.comp_def]

@[simp] theorem children_setParent (parent : Option NodeId) :
    (doc.setParent node parent).children k = doc.children k := by
  by_cases h : node = k <;> simp [setParent, children, getElem?_update, h, Function.comp_def]

theorem parent?_setParent (hn : node < doc.size) (parent : Option NodeId) :
    (doc.setParent node parent).parent? k = if k = node then parent else doc.parent? k := by
  by_cases h : k = node
  · subst h
    obtain ⟨n, hk⟩ := exists_getElem? hn
    simp [setParent, parent?, getElem?_update, hk]
  · have h' : ¬ node = k := fun he => h he.symm
    simp [setParent, parent?, getElem?_update, h, h']

@[simp] theorem data?_setChildren (f : List NodeId → List NodeId) :
    (doc.setChildren node f).data? k = doc.data? k := by
  by_cases h : node = k <;> simp [setChildren, data?, getElem?_update, h, Function.comp_def]

@[simp] theorem parent?_setChildren (f : List NodeId → List NodeId) :
    (doc.setChildren node f).parent? k = doc.parent? k := by
  by_cases h : node = k
  · subst h
    cases hn : doc.nodes[node]? <;> simp [setChildren, parent?, getElem?_update, hn]
  · simp [setChildren, parent?, getElem?_update, h]

theorem children_setChildren (hn : node < doc.size) (f : List NodeId → List NodeId) :
    (doc.setChildren node f).children k =
      if k = node then f (doc.children node) else doc.children k := by
  by_cases h : k = node
  · subst h
    obtain ⟨n, hk⟩ := exists_getElem? hn
    simp [setChildren, children, getElem?_update, hk]
  · have h' : ¬ node = k := fun he => h he.symm
    simp [setChildren, children, getElem?_update, h, h']

@[simp] theorem data?_place (parent old new : NodeId) :
    (doc.place parent old new).data? k = doc.data? k := by simp [place]

theorem parent?_place {old new : NodeId} (ho : old < doc.size) (hn : new < doc.size)
    (parent : NodeId) : (doc.place parent old new).parent? k =
      if k = old then none else if k = new then some parent else doc.parent? k := by
  rw [place, parent?_setParent (by simpa using ho), parent?_setParent (by simpa using hn),
    parent?_setChildren]

theorem data?_add (element : Element) :
    (doc.add element).data? k =
      if k = doc.size then some (.element element) else doc.data? k := by
  by_cases h : k = doc.size <;> simp [data?, getElem?_add, h]

@[simp] theorem children_add (element : Element) :
    (doc.add element).children k = doc.children k := by
  by_cases h : k = doc.size
  · have hn := getElem?_eq_none (Nat.le_of_eq h.symm)
    simp only [children, getElem?_add, h, if_true]
    rw [← h, hn]
    rfl
  · simp [children, getElem?_add, h]

@[simp] theorem parent?_add (element : Element) :
    (doc.add element).parent? k = doc.parent? k := by
  by_cases h : k = doc.size
  · have hn := getElem?_eq_none (Nat.le_of_eq h.symm)
    simp only [parent?, getElem?_add, h, if_true]
    rw [← h, hn]
    rfl
  · simp [parent?, getElem?_add, h]

theorem detach_of_parent? (h : doc.parent? node = none) : doc.detach node = doc := by
  simp [detach, h]

end
end Document

namespace Edit

section
variable {doc : Document} {α β : Type}

theorem run_bind (first : Edit α) (next : α → Edit β) :
    (first >>= next).run doc = match first.run doc with
      | (.ok a, after) => (next a).run after
      | (.error cause, after) => (.error cause, after) := by
  change (ExceptT.bindCont next (first.run doc).1).run (first.run doc).2 = _
  rcases h : first.run doc with ⟨a | a, after⟩ <;> rfl

theorem run_bind_of_ok {first : Edit α} {next : α → Edit β} {a : α} {after : Document}
    (h : first.run doc = (.ok a, after)) : (first >>= next).run doc = (next a).run after := by
  rw [run_bind, h]

@[simp] theorem run_pure (a : α) : (pure a : Edit α).run doc = (.ok a, doc) := rfl

@[simp] theorem run_get : (get : Edit Document).run doc = (.ok doc, doc) := rfl

theorem run_check {node : NodeId} (h : node < doc.size) : (check node).run doc = (.ok (), doc) := by
  unfold check
  rw [run_bind_of_ok run_get]
  simp [h]

theorem run_create (element : Element) :
    (create element).run doc = (.ok doc.size, doc.add element) := rfl

theorem run_check_of_le {node : NodeId} (h : doc.size ≤ node) :
    (check node).run doc = (.error (.noSuchNode node), doc) := by
  unfold check
  rw [run_bind_of_ok run_get]
  simp only [Nat.not_lt.2 h, if_false]
  rfl

theorem run_append_of_lt {parent child : NodeId} (hp : parent < doc.size) (hc : child < doc.size) :
    (append parent child).run doc = (.ok (),
      ((doc.detach child).setParent child (some parent)).setChildren parent (· ++ [child])) := by
  unfold append
  rw [run_bind_of_ok (run_check hp), run_bind_of_ok (run_check hc)]
  rfl

theorem run_append {parent child : NodeId} (hp : parent < doc.size) (hc : child < doc.size)
    (hd : doc.parent? child = none) :
    (append parent child).run doc = (.ok (),
      (doc.setParent child (some parent)).setChildren parent (· ++ [child])) := by
  rw [run_append_of_lt hp hc, Document.detach_of_parent? hd]

theorem run_take {node : NodeId} (h : node < doc.size) :
    (take node).run doc = (.ok (doc.children node),
      (doc.children node).foldl (fun doc child => doc.setParent child none)
        (doc.setChildren node fun _ => [])) := by
  unfold take
  rw [run_bind_of_ok (run_check h), run_bind_of_ok run_get]
  rfl

/-- A node leaves its place and takes that of another one, if that one is still where it was. -/
theorem run_replace_eq {old new parent : NodeId} (ho : old < doc.size) (hn : new < doc.size)
    (hp : doc.parent? old = some parent) :
    (replace old new).run doc =
      if old ∈ (doc.detach new).children parent then
        (.ok (), (doc.detach new).place parent old new)
      else (.error (.detached old), doc.detach new) := by
  have hdetach : (modify (·.detach new) : Edit Unit).run doc = (.ok (), doc.detach new) := rfl
  unfold replace
  rw [run_bind_of_ok (run_check ho), run_bind_of_ok (run_check hn), run_bind_of_ok run_get, hp]
  simp only
  rw [run_bind_of_ok hdetach, run_bind_of_ok run_get]
  by_cases hm : old ∈ (doc.detach new).children parent
  · simp only [hm]
    rfl
  · simp only [hm]
    rfl

theorem run_replace {old new parent : NodeId} (ho : old < doc.size) (hn : new < doc.size)
    (hp : doc.parent? old = some parent) (hd : doc.parent? new = none)
    (hm : old ∈ doc.children parent) :
    (replace old new).run doc = (.ok (), doc.place parent old new) := by
  rw [run_replace_eq ho hn hp, Document.detach_of_parent? hd, if_pos hm]

end
end Edit
end MailTemplate
