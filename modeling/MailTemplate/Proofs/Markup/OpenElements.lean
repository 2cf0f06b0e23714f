import MailTemplate.Proofs.Markup.Numbering

/-! Open elements. While tokens are read, nodes are added one by one below the innermost open element, and
end tags close elements. What comes of it is the forest of the tokens, numbered in document order: the
forest of the tokens that are left is told level by level, and hangs below the elements that are open. -/

namespace MailTemplate
namespace Forest

/-- The content of a complete element: one text, unless it is empty. -/
def ofContent (content : Text) : Forest :=
  if content = [] then nil else leaf (.text content) nil

/-- What tokens add inside the innermost of the open elements, and inside each element around it up
to the outermost level. Open elements are given by name, the innermost first. -/
def grow : List Token → List Text → Forest × List Forest
  | [], opened => (nil, opened.map fun _ => nil)
  | .leaf l :: tokens, opened =>
    let (next, outer) := grow tokens opened
    (leaf l next, outer)
  | .complete e content :: tokens, opened =>
    let (next, outer) := grow tokens opened
    (element e (ofContent content) next, outer)
  | .start e :: tokens, opened =>
    let (children, outer) := grow tokens (e.name :: opened)
    (element e children (outer.headD nil), outer.tail)
  | .stop name :: tokens, opened =>
    match opened.idxOf? name with
    | none => grow tokens opened
    | some i =>
      let (next, outer) := grow tokens (opened.drop (i + 1))
      (nil, List.replicate i nil ++ next :: outer)

/-- The forest of a list of tokens. -/
def ofTokens (tokens : List Token) : Forest := (grow tokens []).1

theorem length_grow (tokens : List Token) (opened : List Text) :
    (grow tokens opened).2.length = opened.length := by
  induction tokens generalizing opened with
  | nil => simp [grow]
  | cons token tokens ih =>
    cases token with
    | leaf l => simp [grow, ih]
    | complete e content => simp [grow, ih]
    | start e => simp [grow, ih]
    | stop name =>
      simp only [grow]
      split
      · exact ih opened
      · next i hi =>
        have hlt : i < opened.length := (List.idxOf?_eq_some_iff.1 hi).1
        simp [ih]
        omega

end Forest

namespace Document

section
variable {doc : Document} {parent node : NodeId} {data : NodeData}

@[simp] theorem size_attach (doc : Document) (parent : NodeId) (data : NodeData) :
    (doc.attach parent data).size = doc.size + 1 := by
  simp [attach, size]

theorem data?_attach : (doc.attach parent data).data? node =
    if node = doc.size then some data else doc.data? node := by
  simp only [data?, attach, size, Array.getElem?_modify, Array.getElem?_push, eq_comm (a := node)]
  split <;> split <;> simp [Function.comp_def]

theorem children_attach (h : parent < doc.size) : (doc.attach parent data).children node =
    if node = parent then doc.children node ++ [doc.size] else doc.children node := by
  have hp : parent < doc.nodes.size := h
  have hpush : (doc.nodes.push ⟨some parent, [], data⟩)[node]? =
      if node = doc.nodes.size then some ⟨some parent, [], data⟩ else doc.nodes[node]? :=
    Array.getElem?_push
  by_cases hn : node = parent
  · subst hn
    simp [children, attach, size, Array.getElem?_modify, hpush, Nat.ne_of_lt hp, hp]
  · rw [if_neg hn]
    simp only [children, attach, size, Array.getElem?_modify, Ne.symm hn, if_false, hpush]
    split
    · next hs => simp [hs]
    · rfl

theorem element?_attach (h : doc.element? node = some e) :
    (doc.attach parent data).element? node = some e := by
  have hn : node ≠ doc.size := by
    rintro rfl
    simp [element?, data?, size] at h
  rw [element?, data?_attach, if_neg hn]
  exact h

theorem element?_attach_size (element : Element) :
    (doc.attach parent (.element element)).element? doc.size = some element := by
  rw [element?, data?_attach, if_pos rfl]

end

/-- The document with a forest hung below a node: its nodes are added one after the other. -/
def hang : Document → NodeId → Forest → Document
  | doc, _, .nil => doc
  | doc, parent, .leaf l next => (doc.attach parent (.leaf l)).hang parent next
  | doc, parent, .element e children next =>
    ((doc.attach parent (.element e)).hang doc.size children).hang parent next

def hangAll : Document → List NodeId → List Forest → Document
  | doc, parent :: parents, forest :: forests => (doc.hang parent forest).hangAll parents forests
  | doc, _, _ => doc

theorem hangAll_replicate (doc : Document) (parents : List NodeId) (n : Nat) (forests : List Forest) :
    doc.hangAll parents (List.replicate n .nil ++ forests) = doc.hangAll (parents.drop n) forests := by
  induction n generalizing parents with
  | zero => rfl
  | succ n ih =>
    cases parents with
    | nil => cases forests <;> rfl
    | cons parent parents => exact ih parents

end Document

section
variable {α : Type} {f : α → α}

theorem modify_append_of_lt {front : List α} {i : Nat} (h : i < front.length) (back : List α) :
    (front ++ back).modify i f = front.modify i f ++ back := by
  induction front generalizing i with
  | nil => cases h
  | cons a front ih =>
    cases i with
    | zero => rfl
    | succ i =>
      rw [List.cons_append, List.modify_succ_cons, List.modify_succ_cons, ih (Nat.lt_of_succ_lt_succ h),
        List.cons_append]

theorem modify_append_length (front back : List α) (a : α) :
    (front ++ a :: back).modify front.length f = front ++ f a :: back := by
  induction front with
  | nil => rfl
  | cons b front ih => rw [List.cons_append, List.length_cons, List.modify_succ_cons, ih, List.cons_append]

end

def Node.adding (ids : List NodeId) (node : Node) : Node :=
  { node with children := node.children ++ ids }

theorem Node.adding_comp (first second : List NodeId) :
    Node.adding second ∘ Node.adding first = Node.adding (first ++ second) := by
  funext node
  simp [Node.adding]

namespace Document

section
variable {doc : Document} {parent : Nat} {forest : Forest}

theorem length_toList (doc : Document) : doc.nodes.toList.length = doc.size := Array.length_toList

theorem toList_attach (h : parent < doc.size) (data : NodeData) :
    (doc.attach parent data).nodes.toList =
      doc.nodes.toList.modify parent (.adding [doc.size]) ++ [⟨some parent, [], data⟩] := by
  rw [attach, Array.toList_modify, Array.toList_push, ← modify_append_of_lt (doc.length_toList ▸ h)]
  rfl

/-- The nodes of a forest that is hung below a node stand behind all others, in document order. -/
theorem toList_hang (h : parent < doc.size) : (doc.hang parent forest).nodes.toList =
    doc.nodes.toList.modify parent (.adding (forest.ids doc.size)) ++ forest.nodes parent doc.size := by
  induction forest generalizing doc parent with
  | nil =>
    have hnone : Node.adding [] = id := by
      funext node
      simp [Node.adding]
    rw [hang, Forest.ids, Forest.nodes, hnone, List.modify_id, List.append_nil]
  | leaf l next ih =>
    have hp : parent < (doc.nodes.toList.modify parent (.adding [doc.size])).length := by
      rwa [List.length_modify, length_toList]
    rw [hang, ih (by rw [size_attach]; exact Nat.lt_succ_of_lt h), toList_attach h, size_attach,
      modify_append_of_lt hp, List.modify_modify_eq, Node.adding_comp, Forest.ids, Forest.nodes,
      List.append_assoc]
    rfl
  | element e children next ihc ihn =>
    let front := doc.nodes.toList.modify parent (.adding [doc.size])
    have hfront : front.length = doc.size := by rw [List.length_modify, length_toList]
    have hchildren : ((doc.attach parent (.element e)).hang doc.size children).nodes.toList = front ++
        ⟨some parent, children.ids (doc.size + 1), .element e⟩ ::
          children.nodes doc.size (doc.size + 1) := by
      have hcons := modify_append_length (f := .adding (children.ids (doc.size + 1))) front []
        ⟨some parent, [], .element e⟩
      rw [hfront] at hcons
      rw [ihc (by rw [size_attach]; exact Nat.lt_succ_self _), toList_attach h, size_attach, hcons,
        List.append_assoc]
      rfl
    have hsize : ((doc.attach parent (.element e)).hang doc.size children).size =
        doc.size + 1 + children.size := by
      rw [← length_toList, hchildren, List.length_append, List.length_cons, Forest.length_nodes, hfront]
      omega
    rw [hang, ihn (by rw [hsize]; omega), hchildren, hsize, modify_append_of_lt (hfront ▸ h),
      List.modify_modify_eq, Node.adding_comp, Forest.ids, Forest.nodes, List.append_assoc]
    rfl

theorem hang_empty (forest : Forest) : empty.hang root forest = ofForest forest := by
  have h : (empty.hang root forest).nodes.toList = _ := toList_hang Nat.one_pos
  rw [Document.mk.injEq, ← Array.toList_inj, h]
  rfl

end
end Document

namespace Reader

def IsNamed (reader : Reader) (names : List Text) : Prop :=
  reader.opened.map (fun node => (reader.doc.element? node).map (·.name)) = names.map some

section
variable {reader : Reader} {names : List Text} {data : NodeData}

theorem IsNamed.attach (h : reader.IsNamed names) (parent : NodeId) (data : NodeData) :
    IsNamed ⟨reader.doc.attach parent data, reader.opened⟩ names := by
  refine (List.map_congr_left fun node hm => ?_).trans h
  have hnamed : (reader.doc.element? node).map (·.name) ∈ names.map some :=
    h ▸ List.mem_map_of_mem hm
  obtain ⟨name, -, hname⟩ := List.mem_map.1 hnamed
  obtain ⟨element, helement, -⟩ := Option.map_eq_some_iff.1 hname.symm
  rw [Document.element?_attach helement, helement]

theorem IsNamed.push (h : reader.IsNamed names) (e : Element) :
    (reader.step (.start e)).IsNamed (e.name :: names) := by
  have hopened := h.attach reader.parent (.element e)
  rw [IsNamed] at hopened ⊢
  rw [step, Reader.attach, List.map_cons, Document.element?_attach_size, List.map_cons, hopened]
  rfl

theorem IsNamed.drop (h : reader.IsNamed names) (n : Nat) :
    IsNamed ⟨reader.doc, reader.opened.drop n⟩ (names.drop n) := by
  rw [IsNamed] at h ⊢
  rw [List.map_drop, List.map_drop, h]

theorem IsNamed.length_eq (h : reader.IsNamed names) : reader.opened.length = names.length := by
  simpa using congrArg List.length h

theorem IsNamed.findIdx?_eq (h : reader.IsNamed names) (name : Text) :
    (reader.opened.findIdx? fun node => (reader.doc.element? node).any (·.name == name)) =
      names.idxOf? name := by
  have hopened := List.findIdx?_map (p := fun named => named.any (· == name))
    (f := fun node => (reader.doc.element? node).map (·.name)) (l := reader.opened)
  have hnames := List.findIdx?_map (p := fun named => named.any (· == name)) (f := some) (l := names)
  rw [h, hnames] at hopened
  simpa [Function.comp_def, Option.any_map, List.idxOf?] using hopened.symm

theorem exists_parents (reader : Reader) :
    ∃ outer, reader.opened ++ [Document.root] = reader.parent :: outer := by
  rw [parent]
  cases reader.opened with
  | nil => exact ⟨[], rfl⟩
  | cons node opened => exact ⟨opened ++ [Document.root], rfl⟩

open Forest in
/-- What tokens that are left add hangs below the elements that are open, each level below its own. -/
theorem doc_foldl_step (tokens : List Token) (h : reader.IsNamed names) :
    (tokens.foldl step reader).doc = reader.doc.hangAll (reader.opened ++ [Document.root])
      ((grow tokens names).1 :: (grow tokens names).2) := by
  induction tokens generalizing reader names with
  | nil =>
    have hnil := Document.hangAll_replicate reader.doc (reader.opened ++ [Document.root])
      (names.length + 1) []
    rw [List.append_nil, List.replicate_succ] at hnil
    rw [List.foldl_nil, grow, List.map_const', hnil]
    cases (reader.opened ++ [Document.root]).drop (names.length + 1) <;> rfl
  | cons token tokens ih =>
    obtain ⟨outer, houter⟩ := reader.exists_parents
    rw [List.foldl_cons, houter]
    cases token with
    | leaf l =>
      rw [step, attach, ih (h.attach _ _), houter, grow]
      rfl
    | complete e content =>
      rw [step, attach, grow, ofContent]
      dsimp only
      split
      · rw [ih (h.attach _ _), houter]
        rfl
      · rw [ih ((h.attach _ _).attach _ _), houter]
        rfl
    | start e =>
      -- the new element is one more level, and what the tokens add on it is its content
      have hlength := length_grow tokens (e.name :: names)
      obtain ⟨next, levels, hlevels⟩ := List.exists_cons_of_length_eq_add_one hlength
      have hgrow : grow tokens (e.name :: names) =
          ((grow tokens (e.name :: names)).1, next :: levels) := Prod.ext rfl hlevels
      rw [ih (h.push e), step, attach, List.cons_append, houter, grow, hgrow]
      rfl
    | stop name =>
      rw [step, h.findIdx?_eq, grow]
      cases hi : names.idxOf? name with
      | none =>
        dsimp only
        rw [ih h, houter]
      | some i =>
        -- the levels that are closed get nothing more
        have hlt : i < reader.opened.length := h.length_eq ▸ (List.idxOf?_eq_some_iff.1 hi).1
        have hdrop : (reader.parent :: outer).drop (i + 1) =
            reader.opened.drop (i + 1) ++ [Document.root] := by
          rw [← houter, List.drop_append_of_le_length hlt]
        have hhang := Document.hangAll_replicate reader.doc (reader.parent :: outer) (i + 1)
          ((grow tokens (names.drop (i + 1))).1 :: (grow tokens (names.drop (i + 1))).2)
        rw [hdrop, List.replicate_succ] at hhang
        dsimp only
        rw [ih (h.drop (i + 1))]
        exact hhang.symm

theorem doc_run (tokens : List Token) :
    (tokens.foldl step start).doc = .ofForest (.ofTokens tokens) := by
  have hnone : start.IsNamed [] := rfl
  have hnil : (Forest.grow tokens []).2 = [] := List.length_eq_zero_iff.1 (Forest.length_grow tokens [])
  rw [doc_foldl_step tokens hnone, hnil]
  exact Document.hang_empty _

end
end Reader

namespace Document

/-- The open elements lead down to where nodes are added: the outermost one is the last child of the root,
and each of the others is the last child of the one around it. -/
def IsRightmost (doc : Document) : List NodeId → Prop
  | [] => root < doc.size
  | node :: outer => outer.headD root < node ∧ node < doc.size ∧
      (doc.children (outer.headD root)).getLast? = some node ∧ doc.IsRightmost outer

namespace IsRightmost

section
variable {doc : Document} {parent : Nat} {opened : List NodeId} {data : NodeData}

theorem headD_lt (h : doc.IsRightmost opened) : opened.headD root < doc.size := by
  cases opened with
  | nil => exact h
  | cons node outer => exact h.2.1

theorem drop (h : doc.IsRightmost opened) (n : Nat) : doc.IsRightmost (opened.drop n) := by
  induction opened generalizing n with
  | nil => rwa [List.drop_nil]
  | cons node outer ih =>
    cases n with
    | zero => exact h
    | succ n => exact ih h.2.2.2 n

/-- A node that is added below the innermost open element, or below what comes after it, leaves the others
where they are. -/
theorem attach (h : doc.IsRightmost opened) (hle : opened.headD root ≤ parent) (hlt : parent < doc.size) :
    (doc.attach parent data).IsRightmost opened := by
  induction opened with
  | nil =>
    rw [IsRightmost, size_attach]
    exact Nat.succ_pos _
  | cons node outer ih =>
    obtain ⟨hparent, hnode, hlast, houter⟩ := h
    have hbefore : outer.headD root < parent := Nat.lt_of_lt_of_le hparent hle
    refine ⟨hparent, ?_, ?_, ih houter (Nat.le_of_lt hbefore)⟩
    · rw [size_attach]
      exact Nat.lt_succ_of_lt hnode
    · rwa [children_attach hlt, if_neg (Nat.ne_of_lt hbefore)]

theorem push (h : doc.IsRightmost opened) :
    (doc.attach (opened.headD root) data).IsRightmost (doc.size :: opened) := by
  refine ⟨h.headD_lt, ?_, ?_, h.attach (Nat.le_refl _) h.headD_lt⟩
  · rw [size_attach]
    exact Nat.lt_succ_self _
  · rw [children_attach h.headD_lt, if_pos rfl, List.getLast?_concat]

theorem step {reader : Reader} (h : reader.doc.IsRightmost reader.opened) (token : Token) :
    (reader.step token).doc.IsRightmost (reader.step token).opened := by
  have hattach : ∀ data, (reader.attach data).doc.IsRightmost (reader.attach data).opened :=
    fun data => h.attach (Nat.le_refl _) h.headD_lt
  cases token with
  | leaf l => exact hattach (.leaf l)
  | complete e content =>
    have helement : reader.doc.size < (reader.attach (.element e)).doc.size := by
      rw [Reader.attach, size_attach]
      exact Nat.lt_succ_self _
    rw [Reader.step]
    split
    · exact hattach (.element e)
    · exact (hattach (.element e)).attach (Nat.le_of_lt h.headD_lt) helement
  | start e => exact h.push
  | stop name =>
    rw [Reader.step]
    split
    · exact h.drop _
    · exact h

theorem foldl_step {reader : Reader} (h : reader.doc.IsRightmost reader.opened) (tokens : List Token) :
    (tokens.foldl Reader.step reader).doc.IsRightmost (tokens.foldl Reader.step reader).opened := by
  induction tokens generalizing reader with
  | nil => exact h
  | cons token tokens ih => exact ih (h.step token)

end
end IsRightmost

theorem parse_eq_ok_iff {source : Text} {doc : Document} :
    parse source = .ok doc ↔
      ∃ tokens, Token.all source = .ok tokens ∧ doc = ofForest (Forest.ofTokens tokens) := by
  unfold parse
  split
  · next tokens ht => simp [ht, Reader.doc_run, eq_comm]
  · next ht => simp [ht]
  · next ht => simp [ht]

end Document
end MailTemplate
