import MailTemplate.Proofs.Markup.Grove

/-! One turn after the other. A pass gives every element of its kind its turn, outer ones before
inner ones; the forest comes out as if all of them had been converted at once. -/

namespace MailTemplate

def CustomTag.inside (tag : CustomTag) (content : Forest) : Forest :=
  if tag = container then .element (.named "tbody".toList) content .nil else content

namespace Grove

/-- The content of a new element with the number `new`, around the content of the old one. -/
def inside (tag : CustomTag) (new : NodeId) (content : Grove) : Grove :=
  if tag = .container then element (new + 1) (.named "tbody".toList) content nil else content

def swap (tag : CustomTag) (old new : NodeId) : Grove → Grove
  | nil => nil
  | leaf id l next => leaf id l (next.swap tag old new)
  | element id e children next =>
    if id = old then
      element new (tag.replacement e.attr?) (inside tag new (children.swap tag old new))
        (next.swap tag old new)
    else element id e (children.swap tag old new) (next.swap tag old new)

def converted (tag : CustomTag) (waiting : List NodeId) : Grove → Forest
  | nil => .nil
  | leaf _ l next => .leaf l (next.converted tag waiting)
  | element id e children next =>
    if id ∈ waiting then
      .element (tag.replacement e.attr?) (tag.inside (children.converted tag waiting))
        (next.converted tag waiting)
    else .element e (children.converted tag waiting) (next.converted tag waiting)

@[simp] theorem converted_nil (tag : CustomTag) (grove : Grove) :
    grove.converted tag [] = grove.forest := by
  induction grove with
  | nil => rfl
  | leaf id l next ih => rw [converted, forest, ih]
  | element id e children next ihc ihn => simp [converted, forest, ihc, ihn]

section
variable {tag : CustomTag} {old new : NodeId} {grove : Grove} {doc after : Document} {e : Element}

theorem converted_inside (tag : CustomTag) (grove : Grove) {waiting : List NodeId}
    (hn : new + 1 ∉ waiting) :
    (inside tag new grove).converted tag waiting = tag.inside (grove.converted tag waiting) := by
  unfold inside CustomTag.inside
  by_cases hc : tag = .container
  · rw [if_pos hc, if_pos hc, converted, if_neg hn, converted]
  · rw [if_neg hc, if_neg hc]

theorem converted_swap {waiting : List NodeId} (hn : new ∉ waiting) (hn' : new + 1 ∉ waiting) :
    (grove.swap tag old new).converted tag waiting = grove.converted tag (old :: waiting) := by
  induction grove with
  | nil => rfl
  | leaf id l next ih => rw [swap, converted, converted, ih]
  | element id e children next ihc ihn =>
    by_cases hid : id = old
    · have hm : id ∈ old :: waiting := by simp [hid]
      rw [swap, if_pos hid, converted, if_neg hn, converted, if_pos hm, converted_inside _ _ hn', ihc,
        ihn]
    · have hm : id ∈ old :: waiting ↔ id ∈ waiting := by simp [hid]
      rw [swap, if_neg hid, converted, converted, ihc, ihn]
      simp only [hm]

theorem ids_swap (h : grove.Stands doc) (he : doc.data? old = some (.element e)) :
    (grove.swap tag old new).ids = grove.ids.flatMap fun id =>
      if id = old then (if tag = .container then [new, new + 1] else [new]) else [id] := by
  induction grove with
  | nil => rfl
  | leaf id l next ih =>
    have hid : id ≠ old := by
      rintro rfl
      rw [h.1] at he
      cases he
    rw [swap, ids, ids, List.flatMap_cons, if_neg hid, ih h.2.2]
    rfl
  | element id e' children next ihc ihn =>
    rw [swap, ids, List.flatMap_cons, List.flatMap_append, ← ihc h.2.2.1, ← ihn h.2.2.2]
    by_cases hid : id = old
    · rw [if_pos hid, if_pos hid, ids, inside]
      by_cases hc : tag = .container
      · simp [hc, ids]
      · simp [hc]
    · rw [if_neg hid, if_neg hid, ids]
      rfl

theorem roots_swap (h : grove.Stands doc) (he : doc.data? old = some (.element e)) :
    (grove.swap tag old new).roots = grove.roots.map (renumber old new) := by
  induction grove with
  | nil => rfl
  | leaf id l next ih =>
    have hid : id ≠ old := by
      rintro rfl
      rw [h.1] at he
      cases he
    rw [swap, roots, roots, List.map_cons, renumber_of_ne hid, ih h.2.2]
  | element id e' children next _ ih =>
    rw [swap, roots, List.map_cons]
    by_cases hid : id = old
    · rw [if_pos hid, roots, ih h.2.2.2, hid, renumber_self]
    · rw [if_neg hid, roots, ih h.2.2.2, renumber_of_ne hid]

theorem mem_elements_swap {id : NodeId} {e' : Element} (h : (id, e') ∈ grove.elements)
    (hid : id ≠ old) : (id, e') ∈ (grove.swap tag old new).elements := by
  induction grove with
  | nil => cases h
  | leaf i l next ih => exact ih h
  | element i e children next ihc ihn =>
    have hinside : ∀ content : Grove, (id, e') ∈ content.elements →
        (id, e') ∈ (inside tag new content).elements := by
      intro content hm
      unfold inside
      by_cases hc : tag = .container
      · rw [if_pos hc]
        exact List.mem_cons_of_mem _ (List.mem_append_left _ hm)
      · rwa [if_neg hc]
    rw [elements, List.mem_cons, List.mem_append] at h
    rw [swap]
    by_cases hi : i = old
    · rw [if_pos hi, elements, List.mem_cons, List.mem_append]
      rcases h with h | h | h
      · exact absurd ((Prod.mk.inj h).1.trans hi) hid
      · exact .inr (.inl (hinside _ (ihc h)))
      · exact .inr (.inr (ihn h))
    · rw [if_neg hi, elements, List.mem_cons, List.mem_append]
      rcases h with h | h | h
      · exact .inl h
      · exact .inr (.inl (ihc h))
      · exact .inr (.inr (ihn h))

theorem Stands.swap (h : grove.Stands doc) (he : doc.data? old = some (.element e))
    (turn : CustomTag.Turn tag old e doc after) (hself : old ∉ doc.children old) :
    (grove.swap tag old doc.size).Stands after := by
  induction grove with
  | nil => trivial
  | leaf id l next ih =>
    have hid : id ≠ old := by
      rintro rfl
      rw [h.1] at he
      cases he
    have hlt := Document.lt_size_of_data? h.1
    refine ⟨?_, ?_, ih h.2.2⟩
    · rw [turn.data hlt, h.1]
    · rw [turn.children hlt hid, h.2.1]
      rfl
  | element id e' children next ihc ihn =>
    have hlt := Document.lt_size_of_data? h.1
    have hc := ihc h.2.2.1
    have hn := ihn h.2.2.2
    by_cases hid : id = old
    · subst hid
      have hee : e' = e := by
        rw [h.1] at he
        exact NodeData.element.inj (Option.some.inj he)
      have hroots : (children.swap tag id doc.size).roots = doc.children id := by
        rw [roots_swap h.2.2.1 he, ← h.2.1, map_renumber_of_notMem hself]
      rw [Grove.swap, if_pos rfl, hee, inside]
      by_cases hcon : tag = .container
      · obtain ⟨hnew, hbody, hcontent⟩ := turn.body hcon
        rw [if_pos hcon]
        refine ⟨turn.new, hnew, ⟨hbody, ?_, hc, trivial⟩, hn⟩
        rw [hcontent, hroots]
      · rw [if_neg hcon]
        refine ⟨turn.new, ?_, hc, hn⟩
        rw [turn.content hcon, hroots]
    · rw [Grove.swap, if_neg hid]
      refine ⟨?_, ?_, hc, hn⟩
      · rw [turn.data hlt, h.1]
      · rw [turn.children hlt hid, h.2.1, roots_swap h.2.2.1 he]

end
end Grove

theorem nodup_flatMap_of_lt {ids news : List NodeId} {old : NodeId} (bound : NodeId)
    (h : ids.Nodup) (hlt : ∀ id ∈ ids, id < bound) (hn : news.Nodup)
    (hge : ∀ id ∈ news, bound ≤ id) :
    (ids.flatMap fun id => if id = old then news else [id]).Nodup := by
  rw [List.nodup_flatMap]
  constructor
  · intro id _
    by_cases hid : id = old
    · rwa [if_pos hid]
    · rw [if_neg hid]
      exact List.nodup_singleton id
  · have hapart : ∀ {a b : NodeId}, a ∈ ids → b ∈ ids → a ≠ b →
        List.Disjoint (if a = old then news else [a]) (if b = old then news else [b]) := by
      intro a b ha hb hab c hca hcb
      have hla := hlt a ha
      have hlb := hlt b hb
      by_cases hao : a = old
      · have hbo : b ≠ old := fun he => hab (hao.trans he.symm)
        rw [if_pos hao] at hca
        rw [if_neg hbo, List.mem_singleton] at hcb
        exact absurd (hge c hca) (Nat.not_le_of_lt (hcb ▸ hlb))
      · rw [if_neg hao, List.mem_singleton] at hca
        by_cases hbo : b = old
        · rw [if_pos hbo] at hcb
          exact absurd (hge c hcb) (Nat.not_le_of_lt (hca ▸ hla))
        · rw [if_neg hbo, List.mem_singleton] at hcb
          exact hab (hca.symm.trans hcb)
    exact h.imp_of_mem hapart

namespace Document

section
variable {doc : Document} {grove : Grove} {tag : CustomTag}

/-- The turn of an element of a grove succeeds, and leaves the grove after the turn. -/
theorem IsGrove.convertNode (tag : CustomTag) (h : doc.IsGrove grove) {old : NodeId} {e : Element}
    (hm : (old, e) ∈ grove.elements) :
    ∃ after, (tag.convertNode old).run doc = (.ok (), after) ∧ doc.size < after.size ∧
      after.IsGrove (grove.swap tag old doc.size) := by
  have hold := Grove.mem_ids_of_mem_elements hm
  have hdata := h.stands.data?_of_mem_elements hm
  obtain ⟨hroot, hnodup⟩ := List.nodup_cons.1 h.distinct
  have hself : old ∉ doc.children old := h.stands.notMem_children hnodup hold
  have hne : root ≠ old := fun he => hroot (he ▸ hold)
  have hlt : root < doc.size := lt_size_of_data? h.rootData
  obtain ⟨parent, hparent⟩ : ∃ parent, old ∈ doc.children parent := by
    rcases h.stands.exists_parent hold with hr | ⟨parent, -, hp⟩
    · exact ⟨root, by rwa [h.rootChildren]⟩
    · exact ⟨parent, hp⟩
  obtain ⟨after, hrun, turn⟩ :=
    CustomTag.exists_run_convertNode h.linked (element?_eq_some_iff.2 hdata) hparent hself tag
  refine ⟨after, hrun, turn.size, turn.linked, ?_, ?_, h.stands.swap hdata turn hself, ?_⟩
  · rw [turn.data hlt, h.rootData]
  · rw [turn.children hlt hne, h.rootChildren, Grove.roots_swap h.stands hdata]
  · have hids : root :: (grove.swap tag old doc.size).ids =
        (root :: grove.ids).flatMap fun id =>
          if id = old then (if tag = .container then [doc.size, doc.size + 1] else [doc.size])
          else [id] := by
      rw [List.flatMap_cons, if_neg hne, Grove.ids_swap h.stands hdata]
      rfl
    rw [hids]
    refine nodup_flatMap_of_lt doc.size h.distinct (fun id hid => ?_) ?_ (fun id hid => ?_)
    · rcases List.mem_cons.1 hid with rfl | hid
      · exact hlt
      · exact h.stands.lt_size hid
    · by_cases hcon : tag = .container <;> simp [hcon]
    · by_cases hcon : tag = .container
      · rw [if_pos hcon, List.mem_cons, List.mem_singleton] at hid
        rcases hid with rfl | rfl
        · exact Nat.le_refl _
        · exact Nat.le_succ _
      · rw [if_neg hcon, List.mem_singleton] at hid
        exact Nat.le_of_eq hid.symm

theorem IsGrove.forM_convertNode (h : doc.IsGrove grove) {waiting : List NodeId}
    (hd : waiting.Nodup) (hw : ∀ id ∈ waiting, ∃ e, (id, e) ∈ grove.elements) :
    ∃ after final, (waiting.forM tag.convertNode).run doc = (.ok (), after) ∧
      after.IsGrove final ∧ final.forest = grove.converted tag waiting := by
  induction waiting generalizing doc grove with
  | nil => exact ⟨doc, grove, rfl, h, (Grove.converted_nil tag grove).symm⟩
  | cons old waiting ih =>
    obtain ⟨hnot, hd⟩ := List.nodup_cons.1 hd
    obtain ⟨e, he⟩ := hw old List.mem_cons_self
    obtain ⟨next, hrun, -, hnext⟩ := h.convertNode tag he
    have hlt : ∀ id ∈ waiting, id < doc.size := by
      intro id hid
      obtain ⟨e', he'⟩ := hw id (List.mem_cons_of_mem _ hid)
      exact h.stands.lt_size (Grove.mem_ids_of_mem_elements he')
    have hw' : ∀ id ∈ waiting, ∃ e', (id, e') ∈ (grove.swap tag old doc.size).elements := by
      intro id hid
      obtain ⟨e', he'⟩ := hw id (List.mem_cons_of_mem _ hid)
      exact ⟨e', Grove.mem_elements_swap he' fun heq => hnot (heq ▸ hid)⟩
    obtain ⟨after, final, hrun', hfinal, hforest⟩ := ih hnext hd hw'
    refine ⟨after, final, ?_, hfinal, ?_⟩
    · have hcons : (old :: waiting).forM tag.convertNode =
          tag.convertNode old >>= fun _ => waiting.forM tag.convertNode := List.forM_cons
      rw [hcons, Edit.run_bind_of_ok hrun, hrun']
    · rw [hforest]
      exact Grove.converted_swap (fun hm => Nat.lt_irrefl _ (hlt _ hm))
        (fun hm => Nat.lt_irrefl _ (Nat.lt_of_succ_lt (hlt _ hm)))

end
end Document
end MailTemplate
