import MailTemplate.Proofs.Markup.Links

/-! The turn of one custom element: the new element takes the place of the old one, and the children
of the old one move below it. Nothing else changes. -/

namespace MailTemplate

/-- A document whose links agree: a child of a node has that node as its parent, and is its child
only once. -/
structure Document.Linked (doc : Document) : Prop where
  parent : ∀ {k child}, child ∈ doc.children k → doc.parent? child = some k
  nodup : ∀ k, (doc.children k).Nodup

def renumber (old new k : NodeId) : NodeId := if k = old then new else k

theorem renumber_of_ne {old new k : NodeId} (h : k ≠ old) : renumber old new k = k := if_neg h

@[simp] theorem renumber_self (old new : NodeId) : renumber old new old = new := if_pos rfl

theorem map_renumber_of_notMem {old new : NodeId} {nodes : List NodeId} (h : old ∉ nodes) :
    nodes.map (renumber old new) = nodes := by
  conv => rhs; rw [← List.map_id nodes]
  exact List.map_congr_left fun k hk => renumber_of_ne fun he => h (he ▸ hk)

theorem replace_eq_map_renumber {nodes : List NodeId} (h : nodes.Nodup) (old new : NodeId) :
    nodes.replace old new = nodes.map (renumber old new) := by
  induction nodes with
  | nil => rfl
  | cons k nodes ih =>
    obtain ⟨hk, hn⟩ := List.nodup_cons.1 h
    by_cases he : k = old
    · subst he
      rw [List.map_cons, renumber_self, map_renumber_of_notMem hk]
      simp
    · rw [List.map_cons, renumber_of_ne he, ← ih hn]
      have hb : (old == k) = false := beq_false_of_ne fun heq => he heq.symm
      simp [List.replace_cons, hb]

theorem nodup_map_renumber {nodes : List NodeId} {old new : NodeId} (h : nodes.Nodup)
    (hn : new ∉ nodes) : (nodes.map (renumber old new)).Nodup := by
  refine h.map_on fun a ha b hb hab => ?_
  unfold renumber at hab
  by_cases ha' : a = old <;> by_cases hb' : b = old <;> simp_all

namespace Document

section
variable {doc : Document} {old parent : NodeId}

theorem Linked.children_place (h : doc.Linked) (hm : old ∈ doc.children parent) (new : NodeId)
    {k : NodeId} :
    (doc.place parent old new).children k = (doc.children k).map (renumber old new) := by
  rw [place, children_setParent, children_setParent, children_setChildren (lt_size_of_mem_children hm)]
  by_cases hk : k = parent
  · rw [if_pos hk, hk, replace_eq_map_renumber (h.nodup parent)]
  · have hold : old ∉ doc.children k := fun hmem =>
      hk (Option.some.inj ((h.parent hmem).symm.trans (h.parent hm)))
    rw [if_neg hk, map_renumber_of_notMem hold]

theorem Linked.place {new : NodeId} (h : doc.Linked) (ho : old < doc.size) (hn : new < doc.size)
    (hne : new ≠ old) (hm : old ∈ doc.children parent) (hd : doc.parent? new = none) :
    (doc.place parent old new).Linked := by
  have hfree : ∀ k, new ∉ doc.children k := by
    intro k hk
    rw [h.parent hk] at hd
    cases hd
  refine ⟨fun {k child} hmem => ?_, fun k => ?_⟩
  · rw [h.children_place hm] at hmem
    obtain ⟨c, hc, rfl⟩ := List.mem_map.1 hmem
    rw [parent?_place ho hn]
    by_cases hco : c = old
    · rw [hco] at hc ⊢
      rw [renumber_self, if_neg hne, if_pos rfl, ← h.parent hm, h.parent hc]
    · have hcn : c ≠ new := fun he => hfree k (he ▸ hc)
      rw [renumber_of_ne hco, if_neg hco, if_neg hcn, h.parent hc]
  · rw [h.children_place hm]
    exact nodup_map_renumber (h.nodup k) (hfree k)

end
end Document

namespace Edit

section
variable {doc : Document}

theorem parent?_foldl_setParent {children : List NodeId} (hc : ∀ child ∈ children, child < doc.size)
    (k : NodeId) :
    (children.foldl (fun doc child => doc.setParent child none) doc).parent? k =
      if k ∈ children then none else doc.parent? k := by
  induction children generalizing doc with
  | nil => simp
  | cons child children ih =>
    have hl : child < doc.size := hc child List.mem_cons_self
    have hr : ∀ c ∈ children, c < (doc.setParent child none).size := by
      intro c hm
      rw [Document.size_setParent]
      exact hc c (List.mem_cons_of_mem _ hm)
    rw [List.foldl_cons, ih hr, Document.parent?_setParent hl]
    by_cases hk : k = child
    · simp [hk]
    · simp [hk]

theorem foldl_setParent_frame (children : List NodeId) (doc : Document) :
    let after := children.foldl (fun doc child => doc.setParent child none) doc
    after.size = doc.size ∧ (∀ k, after.data? k = doc.data? k) ∧
      ∀ k, after.children k = doc.children k := by
  induction children generalizing doc with
  | nil => exact ⟨rfl, fun _ => rfl, fun _ => rfl⟩
  | cons child children ih =>
    obtain ⟨hs, hd, hc⟩ := ih (doc.setParent child none)
    exact ⟨by simpa using hs, fun k => by simpa using hd k, fun k => by simpa using hc k⟩

theorem exists_run_take {node : NodeId} (hn : node < doc.size)
    (hc : ∀ child ∈ doc.children node, child < doc.size) :
    ∃ after, (take node).run doc = (.ok (doc.children node), after) ∧ after.size = doc.size ∧
      (∀ k, after.data? k = doc.data? k) ∧
      (∀ k, after.children k = if k = node then [] else doc.children k) ∧
      ∀ k, after.parent? k = if k ∈ doc.children node then none else doc.parent? k := by
  refine ⟨_, run_take hn, ?_⟩
  obtain ⟨hs, hd, hch⟩ := foldl_setParent_frame (doc.children node) (doc.setChildren node fun _ => [])
  refine ⟨by simpa using hs, fun k => by simpa using hd k, fun k => ?_, fun k => ?_⟩
  · rw [hch, Document.children_setChildren hn]
  · rw [parent?_foldl_setParent (by simpa using hc), Document.parent?_setChildren]

theorem exists_run_forM_append {parent : NodeId} {children : List NodeId} (hp : parent < doc.size)
    (hc : ∀ child ∈ children, child < doc.size ∧ doc.parent? child = none)
    (hd : children.Nodup) :
    ∃ after, (children.forM (append parent)).run doc = (.ok (), after) ∧ after.size = doc.size ∧
      (∀ k, after.data? k = doc.data? k) ∧
      (∀ k, after.children k =
        if k = parent then doc.children parent ++ children else doc.children k) ∧
      ∀ k, after.parent? k = if k ∈ children then some parent else doc.parent? k := by
  induction children generalizing doc with
  | nil =>
    refine ⟨doc, rfl, rfl, fun _ => rfl, fun k => ?_, fun k => by simp⟩
    by_cases hk : k = parent <;> simp [hk]
  | cons child children ih =>
    obtain ⟨hl, hnone⟩ := hc child List.mem_cons_self
    obtain ⟨hnm, hd⟩ := List.nodup_cons.1 hd
    let next := (doc.setParent child (some parent)).setChildren parent (· ++ [child])
    have hsize : next.size = doc.size := by simp [next]
    have hparent : ∀ k, next.parent? k = if k = child then some parent else doc.parent? k := by
      intro k
      simp [next, Document.parent?_setParent hl]
    have hchildren : ∀ k, next.children k =
        if k = parent then doc.children parent ++ [child] else doc.children k := by
      intro k
      have hp' : parent < (doc.setParent child (some parent)).size := by simpa using hp
      simp [next, Document.children_setChildren hp']
    have hrest : ∀ c ∈ children, c < next.size ∧ next.parent? c = none := by
      intro c hm
      obtain ⟨hcl, hcn⟩ := hc c (List.mem_cons_of_mem _ hm)
      have hne : c ≠ child := fun he => hnm (he ▸ hm)
      rw [hsize, hparent, if_neg hne]
      exact ⟨hcl, hcn⟩
    obtain ⟨after, hrun, hs, hdata, hch, hpar⟩ := ih (hsize ▸ hp) hrest hd
    refine ⟨after, ?_, hs.trans hsize, fun k => ?_, fun k => ?_, fun k => ?_⟩
    · have happend : (append parent child).run doc = (.ok (), next) := run_append hp hl hnone
      have hcons : (child :: children).forM (append parent) =
          append parent child >>= fun _ => children.forM (append parent) := List.forM_cons
      rw [hcons, run_bind_of_ok happend, hrun]
    · rw [hdata]
      simp [next]
    · rw [hch, hchildren, hchildren]
      by_cases hk : k = parent <;> simp [hk]
    · rw [hpar, hparent]
      by_cases hk : k = child <;> by_cases hm : k ∈ children <;> simp [hk, hm]

theorem exists_run_move {node content : NodeId} (hl : doc.Linked) (hn : node < doc.size)
    (hc : content < doc.size) (hne : content ≠ node) (hempty : doc.children content = []) :
    ∃ after, (take node >>= fun children => children.forM (append content)).run doc =
        (.ok (), after) ∧
      after.size = doc.size ∧ (∀ k, after.data? k = doc.data? k) ∧
      (∀ k, after.children k =
        if k = node then [] else if k = content then doc.children node else doc.children k) ∧
      (∀ k, after.parent? k = if k ∈ doc.children node then some content else doc.parent? k) ∧
      after.Linked := by
  have hlt : ∀ child ∈ doc.children node, child < doc.size := fun child hm =>
    Document.lt_size_of_parent? (hl.parent hm)
  obtain ⟨taken, hrun, hs, hdata, hch, hpar⟩ := exists_run_take hn hlt
  have hfree : ∀ child ∈ doc.children node, child < taken.size ∧ taken.parent? child = none := by
    intro child hm
    rw [hs, hpar, if_pos hm]
    exact ⟨hlt child hm, rfl⟩
  obtain ⟨after, hrun', hs', hdata', hch', hpar'⟩ :=
    exists_run_forM_append (hs.symm ▸ hc) hfree (hl.nodup node)
  have hchildren : ∀ k, after.children k =
      if k = node then [] else if k = content then doc.children node else doc.children k := by
    intro k
    rw [hch', hch, hch, if_neg hne, hempty]
    by_cases hk : k = content
    · simp [hk, hne]
    · simp [hk]
  have hparent : ∀ k, after.parent? k =
      if k ∈ doc.children node then some content else doc.parent? k := by
    intro k
    rw [hpar', hpar]
    by_cases hm : k ∈ doc.children node <;> simp [hm]
  refine ⟨after, ?_, hs'.trans hs, fun k => ?_, hchildren, hparent, fun {k child} hm => ?_, fun k => ?_⟩
  · rw [run_bind_of_ok hrun, hrun']
  · rw [hdata', hdata]
  · rw [hchildren] at hm
    rw [hparent]
    by_cases hk : k = node
    · rw [if_pos hk] at hm
      cases hm
    · rw [if_neg hk] at hm
      by_cases hkc : k = content
      · rw [if_pos hkc] at hm
        rw [if_pos hm, hkc]
      · rw [if_neg hkc] at hm
        have hnot : child ∉ doc.children node := fun hmem =>
          hk (Option.some.inj ((hl.parent hm).symm.trans (hl.parent hmem)))
        rw [if_neg hnot, hl.parent hm]
  · rw [hchildren]
    by_cases hk : k = node
    · simp [hk]
    · rw [if_neg hk]
      by_cases hkc : k = content <;> simp [hkc, hl.nodup]

theorem exists_run_replace {old new parent : NodeId} (hl : doc.Linked) (ho : old < doc.size)
    (hn : new < doc.size) (hne : new ≠ old) (hm : old ∈ doc.children parent)
    (hd : doc.parent? new = none) :
    ∃ after, (replace old new).run doc = (.ok (), after) ∧ after.size = doc.size ∧
      (∀ k, after.data? k = doc.data? k) ∧
      (∀ k, after.children k = (doc.children k).map (renumber old new)) ∧ after.Linked :=
  ⟨doc.place parent old new, run_replace ho hn (hl.parent hm) hd hm, Document.size_place _ _ _,
    fun _ => Document.data?_place _ _ _, fun _ => hl.children_place hm new,
    hl.place ho hn hne hm hd⟩

/-- The last steps of a turn: the children move, then the new element takes the old one's place. The
links agree afterwards. -/
theorem exists_run_move_replace {old new content parent : NodeId} (hl : doc.Linked)
    (hm : old ∈ doc.children parent) (hself : old ∉ doc.children old) (hn : new < doc.size)
    (hd : doc.parent? new = none) (hc : content < doc.size) (hne : content ≠ old)
    (hnew : new ≠ old) (hempty : doc.children content = []) :
    ∃ after, (do
        let children ← take old
        children.forM (append content)
        replace old new).run doc = (.ok (), after) ∧ after.size = doc.size ∧
      (∀ k, after.data? k = doc.data? k) ∧
      (∀ k, after.children k = if k = old then [] else if k = content then doc.children old
        else (doc.children k).map (renumber old new)) ∧ after.Linked := by
  have hlt : old < doc.size := Document.lt_size_of_parent? (hl.parent hm)
  have hfree : ∀ k, new ∉ doc.children k := by
    intro k hk
    rw [hl.parent hk] at hd
    cases hd
  obtain ⟨moved, hrun, hs, hdata, hch, hpar, hlinked⟩ := exists_run_move hl hlt hc hne hempty
  have hpo : parent ≠ old := fun he => hself (he ▸ hm)
  have hpc : parent ≠ content := by
    rintro rfl
    rw [hempty] at hm
    cases hm
  have hmem : old ∈ moved.children parent := by rwa [hch, if_neg hpo, if_neg hpc]
  have hfreed : moved.parent? new = none := by rw [hpar, if_neg (hfree old), hd]
  obtain ⟨after, hrun', hs', hdata', hch', hlinked'⟩ :=
    exists_run_replace hlinked (hs.symm ▸ hlt) (hs.symm ▸ hn) hnew hmem hfreed
  refine ⟨after, ?_, hs'.trans hs, fun k => ?_, fun k => ?_, hlinked'⟩
  · have hassoc : (do
        let children ← take old
        children.forM (append content)
        replace old new) =
        (take old >>= fun children => children.forM (append content)) >>= fun _ => replace old new := by
      rw [bind_assoc]
    rw [hassoc, run_bind_of_ok hrun, hrun']
  · rw [hdata', hdata]
  · rw [hch', hch]
    by_cases hk : k = old
    · simp [hk]
    · by_cases hkc : k = content
      · rw [if_neg hk, if_pos hkc, if_neg hk, if_pos hkc, map_renumber_of_notMem hself]
      · rw [if_neg hk, if_neg hkc, if_neg hk, if_neg hkc]

end
end Edit

theorem Document.Linked.add {doc : Document} (h : doc.Linked) (element : Element) :
    (doc.add element).Linked where
  parent := by
    intro k child hm
    rw [Document.children_add] at hm
    rw [Document.parent?_add, h.parent hm]
  nodup := by
    intro k
    rw [Document.children_add]
    exact h.nodup k

theorem Document.Linked.append {doc : Document} {parent child : NodeId} (h : doc.Linked)
    (hp : parent < doc.size) (hc : child < doc.size) (hd : doc.parent? child = none) :
    ((doc.setParent child (some parent)).setChildren parent (· ++ [child])).Linked := by
  have hfree : ∀ k, child ∉ doc.children k := by
    intro k hk
    rw [h.parent hk] at hd
    cases hd
  have hp' : parent < (doc.setParent child (some parent)).size := by rwa [Document.size_setParent]
  refine ⟨fun {k c} hm => ?_, fun k => ?_⟩
  · rw [Document.children_setChildren hp', Document.children_setParent,
      Document.children_setParent] at hm
    rw [Document.parent?_setChildren, Document.parent?_setParent hc]
    by_cases hk : k = parent
    · rw [if_pos hk, List.mem_append, List.mem_singleton] at hm
      rcases hm with hm | rfl
      · have hne : c ≠ child := fun he => hfree parent (he ▸ hm)
        rw [if_neg hne, hk, h.parent hm]
      · rw [if_pos rfl, hk]
    · rw [if_neg hk] at hm
      have hne : c ≠ child := fun he => hfree k (he ▸ hm)
      rw [if_neg hne, h.parent hm]
  · rw [Document.children_setChildren hp', Document.children_setParent,
      Document.children_setParent]
    by_cases hk : k = parent
    · rw [if_pos hk]
      exact (h.nodup parent).append (List.nodup_singleton child) (by simpa using hfree parent)
    · rw [if_neg hk]
      exact h.nodup k

namespace Document

def nest (doc : Document) (outer inner : Element) : Document :=
  (((doc.add outer).add inner).setParent (doc.size + 1) (some doc.size)).setChildren doc.size
    (· ++ [doc.size + 1])

section
variable {doc : Document} {k : NodeId} {outer inner : Element}

theorem lt_size_add_add : doc.size < ((doc.add outer).add inner).size ∧
    doc.size + 1 < ((doc.add outer).add inner).size := by
  rw [size_add, size_add]
  omega

@[simp] theorem size_nest : (doc.nest outer inner).size = doc.size + 2 := by simp [nest]

theorem data?_nest : (doc.nest outer inner).data? k =
    if k = doc.size + 1 then some (.element inner)
    else if k = doc.size then some (.element outer) else doc.data? k := by
  simp [nest, data?_add]

theorem children_nest : (doc.nest outer inner).children k =
    if k = doc.size then [doc.size + 1] else doc.children k := by
  rw [nest, children_setChildren (by rw [size_setParent]; exact lt_size_add_add.1)]
  simp only [children_setParent, children_add]
  rw [children_eq_nil_of_le (Nat.le_refl _), List.nil_append]

theorem parent?_nest_size : (doc.nest outer inner).parent? doc.size = none := by
  rw [nest, parent?_setChildren, parent?_setParent lt_size_add_add.2, if_neg (Nat.succ_ne_self _).symm,
    parent?_add, parent?_add, parent?_eq_none_of_le (Nat.le_refl _)]

theorem parent?_add_add : ((doc.add outer).add inner).parent? (doc.size + 1) = none := by
  rw [parent?_add, parent?_add, parent?_eq_none_of_le (Nat.le_succ _)]

theorem Linked.nest (h : doc.Linked) : (doc.nest outer inner).Linked :=
  ((h.add outer).add inner).append lt_size_add_add.1 lt_size_add_add.2 parent?_add_add

theorem run_append_nest : (Edit.append doc.size (doc.size + 1)).run ((doc.add outer).add inner) =
    (.ok (), doc.nest outer inner) :=
  Edit.run_append lt_size_add_add.1 lt_size_add_add.2 parent?_add_add

end
end Document

namespace CustomTag

/-- What the turn of an element does: its number is renumbered to a new node with the element that
takes its place, and its children are found below that node, or below the body inside it. -/
structure Turn (tag : CustomTag) (old : NodeId) (element : Element) (doc after : Document) :
    Prop where
  size : doc.size < after.size
  data : ∀ {k}, k < doc.size → after.data? k = doc.data? k
  children : ∀ {k}, k < doc.size → k ≠ old →
    after.children k = (doc.children k).map (renumber old doc.size)
  new : after.data? doc.size = some (.element (tag.replacement element.attr?))
  content : tag ≠ container → after.children doc.size = doc.children old
  body : tag = container → after.children doc.size = [doc.size + 1] ∧
    after.data? (doc.size + 1) = some (.element (.named "tbody".toList)) ∧
    after.children (doc.size + 1) = doc.children old
  linked : after.Linked

section
variable {doc : Document} {old parent : NodeId} {element : Element}

theorem convertNode_eq {tag : CustomTag} (h : tag ≠ container) (node : NodeId) :
    tag.convertNode node = (do
      let doc ← get
      let new ← Edit.create (tag.replacement fun name => (doc.element? node).bind (·.attr? name))
      let children ← Edit.take node
      children.forM (Edit.append new)
      Edit.replace node new) := by
  cases tag with
  | container => exact absurd rfl h
  | row => rfl
  | columns => rfl
  | button => rfl

theorem convertNode_container (node : NodeId) :
    container.convertNode node = (do
      let doc ← get
      let new ← Edit.create
        (container.replacement fun name => (doc.element? node).bind (·.attr? name))
      let body ← Edit.create (.named "tbody".toList)
      Edit.append new body
      let children ← Edit.take node
      children.forM (Edit.append body)
      Edit.replace node new) := by
  unfold convertNode
  simp only [pure_bind]

theorem run_get_create (doc : Document) (element : Document → Element) (next : NodeId → Edit Unit) :
    (do
      let doc ← get
      let new ← Edit.create (element doc)
      next new : Edit Unit).run doc = (next doc.size).run (doc.add (element doc)) := by
  rw [Edit.run_bind_of_ok Edit.run_get, Edit.run_bind_of_ok (Edit.run_create _)]

theorem attr?_element? (he : doc.element? old = some element) :
    (fun name => (doc.element? old).bind (·.attr? name)) = element.attr? := by
  funext name
  rw [he]
  rfl

section
variable (hl : doc.Linked) (he : doc.element? old = some element) (hm : old ∈ doc.children parent)
  (hself : old ∉ doc.children old)
include hl he hm hself

theorem exists_run_convertNode_of_ne {tag : CustomTag} (hc : tag ≠ container) :
    ∃ after, (tag.convertNode old).run doc = (.ok (), after) ∧ Turn tag old element doc after := by
  let made := doc.add (tag.replacement element.attr?)
  have hold : old < doc.size := Document.lt_size_of_parent? (hl.parent hm)
  have hnew : doc.size ≠ old := Nat.ne_of_gt hold
  have hchildren : ∀ k, made.children k = doc.children k := fun _ => Document.children_add _
  have hdata : ∀ {k}, made.data? k =
      if k = doc.size then some (.element (tag.replacement element.attr?)) else doc.data? k :=
    Document.data?_add _
  have hn : doc.size < made.size := by simp [made]
  have hd : made.parent? doc.size = none :=
    (Document.parent?_add _).trans (Document.parent?_eq_none_of_le (Nat.le_refl _))
  have hempty : made.children doc.size = [] :=
    (hchildren _).trans (Document.children_eq_nil_of_le (Nat.le_refl _))
  obtain ⟨after, hrun, hs, hdata', hch, hlinked⟩ := Edit.exists_run_move_replace (hl.add _)
    (by rwa [hchildren]) (by rwa [hchildren]) hn hd hn hnew hnew hempty
  refine ⟨after, ?_, hs ▸ hn, fun {k} hk => ?_, fun {k} hk hne => ?_, ?_, fun _ => ?_,
    fun hcon => absurd hcon hc, hlinked⟩
  · rw [convertNode_eq hc, run_get_create, attr?_element? he]
    exact hrun
  · rw [hdata', hdata, if_neg (Nat.ne_of_lt hk)]
  · rw [hch, if_neg hne, if_neg (Nat.ne_of_lt hk), hchildren]
  · rw [hdata', hdata, if_pos rfl]
  · rw [hch, if_neg hnew, if_pos rfl, hchildren]

theorem exists_run_convertNode_container : ∃ after,
    (container.convertNode old).run doc = (.ok (), after) ∧ Turn container old element doc after := by
  let ready := doc.nest (container.replacement element.attr?) (.named "tbody".toList)
  have hold : old < doc.size := Document.lt_size_of_parent? (hl.parent hm)
  have hparent : parent < doc.size := Document.lt_size_of_mem_children hm
  have hlt : ∀ {k}, k < doc.size → k ≠ doc.size ∧ k ≠ doc.size + 1 := by
    intro k hk
    omega
  have hnew : doc.size ≠ old := (hlt hold).1.symm
  have hcontent : doc.size + 1 ≠ old := (hlt hold).2.symm
  have hchildren : ∀ k, k ≠ doc.size → ready.children k = doc.children k := by
    intro k hk
    rw [Document.children_nest, if_neg hk]
  have hsize : ready.size = doc.size + 2 := Document.size_nest
  have hn : doc.size < doc.size + 2 := by omega
  have hempty : ready.children (doc.size + 1) = [] :=
    (hchildren _ (Nat.succ_ne_self _)).trans (Document.children_eq_nil_of_le (Nat.le_succ _))
  obtain ⟨after, hrun, hs, hdata, hch, hlinked⟩ := Edit.exists_run_move_replace
    (hl.nest : ready.Linked) (by rwa [hchildren _ (hlt hparent).1]) (by rwa [hchildren _ (hlt hold).1])
    (hsize ▸ hn) Document.parent?_nest_size (hsize ▸ Nat.lt_succ_self _) hcontent hnew hempty
  refine ⟨after, ?_, hs ▸ hsize ▸ hn, fun {k} hk => ?_, fun {k} hk hne => ?_, ?_,
    fun hcon => absurd rfl hcon, fun _ => ⟨?_, ?_, ?_⟩, hlinked⟩
  · rw [convertNode_container, run_get_create, attr?_element? he,
      Edit.run_bind_of_ok (Edit.run_create _), Document.size_add,
      Edit.run_bind_of_ok Document.run_append_nest]
    exact hrun
  · rw [hdata, Document.data?_nest, if_neg (hlt hk).2, if_neg (hlt hk).1]
  · rw [hch, if_neg hne, if_neg (hlt hk).2, hchildren _ (hlt hk).1]
  · rw [hdata, Document.data?_nest, if_neg (Nat.succ_ne_self _).symm, if_pos rfl]
  · rw [hch, if_neg hnew, if_neg (Nat.succ_ne_self _).symm, Document.children_nest, if_pos rfl,
      List.map_singleton, renumber_of_ne hcontent]
  · rw [hdata, Document.data?_nest, if_pos rfl]
  · rw [hch, if_neg hcontent, if_pos rfl, hchildren _ (hlt hold).1]

theorem exists_run_convertNode (tag : CustomTag) :
    ∃ after, (tag.convertNode old).run doc = (.ok (), after) ∧ Turn tag old element doc after := by
  by_cases hc : tag = container
  · subst hc
    exact exists_run_convertNode_container hl he hm hself
  · exact exists_run_convertNode_of_ne hl he hm hself hc

end

end
end CustomTag
end MailTemplate
