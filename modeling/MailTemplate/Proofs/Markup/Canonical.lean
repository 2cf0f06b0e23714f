import MailTemplate.Proofs.Markup.Reparse

/-! Canonical trees: those whose printed form shows every node where it begins and ends. They are
described by what may stand in a node, without the reader. Reading the printed form of a canonical
tree gives the tree back. -/

namespace MailTemplate
namespace Text

/-- Whether markup begins somewhere in a text: a brace with a mark, a question mark or a letter next
to it, or with a slash and a letter. -/
def HoldsMarkup (text : Text) : Prop :=
  ['<', '!'] <:+: text ∨ ['<', '?'] <:+: text ∨
    ∃ c ∈ text, c.isAlpha = true ∧ (['<', c] <:+: text ∨ ['<', '/', c] <:+: text)

-- Only the characters of the text are tried for the letter.
instance (text : Text) : Decidable text.HoldsMarkup :=
  @instDecidableOr _ _ inferInstance (@instDecidableOr _ _ inferInstance (List.decidableBEx _ _))

theorem isPlain_of_not_holdsMarkup {text : Text} (h : ¬ text.HoldsMarkup) : text.IsPlain := by
  intro part hp
  by_contra hne
  apply h
  have hin : ∀ front rest : Text, part = front ++ rest → front <:+: text := by
    rintro front rest rfl
    exact (List.prefix_append front rest).isInfix.trans hp.isInfix
  rcases Lead.ofText_ne_text_iff.1 hne with ⟨c, rest, hpart, hc⟩ | ⟨c, rest, hpart, hc⟩
  · have hi := hin ['<', c] rest (by simpa using hpart)
    rcases hc with rfl | rfl | hc
    · exact .inl hi
    · exact .inr (.inl hi)
    · exact .inr (.inr ⟨c, hi.subset (by simp), hc, .inl hi⟩)
  · have hi := hin ['<', '/', c] rest (by simpa using hpart)
    exact .inr (.inr ⟨c, hi.subset (by simp), hc, .inr hi⟩)

theorem lower_eq_self {text : Text} (h : ∀ c ∈ text, c.isUpper = false) : lower text = text := by
  conv => rhs; rw [← List.map_id text]
  exact List.map_congr_left fun c hc => Char.toLower_eq_of_not_isUpper (by simp [h c hc])

end Text

/-- A text of a canonical tree is not empty and holds no markup, a comment does not hold its end, and
a declaration begins as one and ends at its only closing brace. -/
def Leaf.IsCanonical : Leaf → Prop
  | .text content => content ≠ [] ∧ ¬ content.HoldsMarkup
  | .comment body => ¬ "-->".toList <:+: body
  | .declaration source =>
    (['<', '?'] <+: source ∨ ['<', '!'] <+: source ∧ ¬ "<!--".toList <+: source) ∧
      source.getLast? = some '>' ∧ '>' ∉ source.dropLast

/-- A name of an attribute of a canonical tree. Its value may be missing, or any text. -/
def Attribute.IsCanonical (attr : Attribute) : Prop :=
  attr.name ≠ [] ∧ ∀ c ∈ attr.name, Text.isSpace c = false ∧ c ≠ '=' ∧ c ≠ '>' ∧ c ≠ '/'

/-- A name of an element of a canonical tree begins with a letter and has none in upper case. -/
def Element.IsCanonical (element : Element) : Prop :=
  element.name.head?.any Char.isAlpha = true ∧
    (∀ c ∈ element.name, c.isUpper = false ∧ Text.isSpace c = false ∧ c ≠ '/' ∧ c ≠ '>') ∧
    ∀ attr ∈ element.attributes, attr.IsCanonical

namespace Forest

/-- The content of a raw element of a canonical tree: nothing, or one text without the end tag in any
case. -/
def IsRawContent (name : Text) : Forest → Prop
  | nil => True
  | leaf (.text content) nil => content ≠ [] ∧ ¬ ['<', '/'] ++ name <:+: Text.lower content
  | _ => False

/-- Canonical trees. No two texts stand side by side, void and self-closing elements have no content,
and raw elements have raw content. -/
def IsCanonical : Forest → Prop
  | nil => True
  | leaf l next => l.IsCanonical ∧ (l.isText = true → next.leadsText = false) ∧ next.IsCanonical
  | element e children next =>
    e.IsCanonical ∧
      (if e.isVoid || e.selfClosing then children = nil
        else if e.isRaw then children.IsRawContent e.name
        else children.IsCanonical) ∧
      next.IsCanonical

end Forest

section

instance : (leaf : Leaf) → Decidable leaf.IsCanonical
  | .text _ => inferInstanceAs (Decidable (_ ∧ _))
  | .comment _ => inferInstanceAs (Decidable (¬ _))
  | .declaration _ => inferInstanceAs (Decidable (_ ∧ _ ∧ _))

instance (attr : Attribute) : Decidable attr.IsCanonical :=
  @instDecidableAnd _ _ inferInstance (List.decidableBAll _ _)

instance (element : Element) : Decidable element.IsCanonical :=
  @instDecidableAnd _ _ inferInstance (@instDecidableAnd _ _ (List.decidableBAll _ _) inferInstance)

instance (name : Text) : (forest : Forest) → Decidable (forest.IsRawContent name)
  | .nil => isTrue trivial
  | .leaf (.text _) .nil => inferInstanceAs (Decidable (_ ∧ _))
  | .leaf (.text _) (.leaf _ _) | .leaf (.text _) (.element _ _ _) | .leaf (.comment _) _
  | .leaf (.declaration _) _ | .element _ _ _ => isFalse id

instance Forest.decidableIsCanonical : (forest : Forest) → Decidable forest.IsCanonical
  | nil => isTrue trivial
  | .leaf _ next =>
    have := next.decidableIsCanonical
    inferInstanceAs (Decidable (_ ∧ _ ∧ _))
  | .element _ children next =>
    have := children.decidableIsCanonical
    have := next.decidableIsCanonical
    inferInstanceAs (Decidable (_ ∧ _ ∧ _))

end

section
variable {leaf : Leaf} {attr : Attribute} {forest : Forest}

theorem Leaf.IsCanonical.wellFormed (h : leaf.IsCanonical) : leaf.WellFormed := by
  cases leaf with
  | text content => exact ⟨h.1, Text.isPlain_of_not_holdsMarkup h.2⟩
  | comment body => exact h
  | declaration source =>
    obtain ⟨hlead, hlast, hbody⟩ := h
    obtain ⟨before, rfl⟩ := List.getLast?_eq_some_iff.1 hlast
    refine ⟨Lead.ofText_eq_declaration_iff.2 ?_, before, by simpa using hbody, rfl⟩
    rcases hlead with ⟨rest, hrest⟩ | ⟨⟨rest, hrest⟩, hn⟩
    · exact .inl ⟨rest, hrest.symm⟩
    · refine .inr ⟨rest, hrest.symm, fun hd => hn ?_⟩
      rw [← hrest]
      exact (List.prefix_append_right_inj ['<', '!']).2 hd

theorem Attribute.IsCanonical.wellFormed (h : attr.IsCanonical) : attr.WellFormed := by
  refine .inr ⟨h.1, fun c hc => ?_⟩
  simp [isNameChar, h.2 c hc]

theorem Element.IsCanonical.wellFormed {element : Element} (h : element.IsCanonical) :
    element.WellFormed := by
  obtain ⟨hhead, hchars, hattrs⟩ := h
  refine ⟨?_, fun c hc => ?_, ?_, fun attr hm => (hattrs attr hm).wellFormed⟩
  · obtain ⟨c, hc, ha⟩ := (Option.any_eq_true _ _).1 hhead
    obtain ⟨rest, hrest⟩ := List.head?_eq_some_iff.1 hc
    exact ⟨c, rest, hrest, ha⟩
  · simp [Token.isNameChar, hchars c hc]
  · exact Text.lower_eq_self fun c hc => (hchars c hc).1

theorem Attribute.separate_of_isCanonical {attributes : List Attribute}
    (h : ∀ attr ∈ attributes, attr.IsCanonical) : Separate attributes := by
  induction attributes with
  | nil => trivial
  | cons attr rest ih =>
    refine ⟨fun _ next hn heq => ?_, ih fun a hm => h a (List.mem_cons_of_mem _ hm)⟩
    have hnext := (h next (List.mem_cons_of_mem _ (List.mem_of_mem_head? hn))).2 '='
    simp [heq] at hnext

namespace Forest

theorem exists_eq_ofContent {name : Text} (h : forest.IsRawContent name) :
    ∃ content, forest = ofContent content ∧ ¬ ['<', '/'] ++ name <:+: Text.lower content := by
  unfold IsRawContent at h
  split at h
  · exact ⟨[], rfl, by simp⟩
  · next content => exact ⟨content, by simp [ofContent, h.1], h.2⟩
  · exact h.elim

theorem IsCanonical.wellFormed (h : forest.IsCanonical) : forest.WellFormed := by
  induction forest with
  | nil => trivial
  | leaf l next ih => exact ⟨h.1.wellFormed, ih h.2.2⟩
  | element e children next ihc ihn =>
    obtain ⟨he, hc, hn⟩ := h
    refine wellFormed_element_iff.2 ⟨he.wellFormed, ihn hn, ?_⟩
    have hleaf : e.isLeaf = (e.isVoid || e.selfClosing) := Bool.or_comm _ _
    by_cases hl : (e.isVoid || e.selfClosing) = true
    · rw [if_pos hl] at hc
      exact .inl ⟨hleaf.trans hl, hc⟩
    · rw [if_neg hl] at hc
      have hl' : e.isLeaf = false := hleaf.trans (Bool.eq_false_iff.2 hl)
      by_cases hr : e.isRaw = true
      · rw [if_pos hr] at hc
        exact .inr (.inl ⟨hl', hr, exists_eq_ofContent hc⟩)
      · rw [if_neg hr] at hc
        exact .inr (.inr ⟨hl', Bool.eq_false_iff.2 hr, ihc hc⟩)

/-- The content of an element of a canonical tree is a canonical tree, or raw content. -/
theorem content_of_isCanonical {e : Element} {children next : Forest}
    (h : (element e children next).IsCanonical) :
    children.IsCanonical ∨ ∃ content, children = ofContent content := by
  have hc := h.2.1
  split at hc
  · exact .inl (hc ▸ trivial)
  · split at hc
    · obtain ⟨content, hcontent, -⟩ := exists_eq_ofContent hc
      exact .inr ⟨content, hcontent⟩
    · exact .inl hc

theorem IsCanonical.apart (h : forest.IsCanonical) : forest.Apart := by
  induction forest with
  | nil => trivial
  | leaf l next ih => exact ⟨h.2.1, ih h.2.2⟩
  | element e children next ihc ihn =>
    refine ⟨?_, ihn h.2.2⟩
    rcases content_of_isCanonical h with hc | ⟨content, rfl⟩
    · exact ihc hc
    · rw [← merge_ofContent]
      exact apart_merge _

theorem IsCanonical.separate (h : forest.IsCanonical) : forest.Separate := by
  induction forest with
  | nil => trivial
  | leaf l next ih => exact ih h.2.2
  | element e children next ihc ihn =>
    refine ⟨Attribute.separate_of_isCanonical h.1.2.2, ?_, ihn h.2.2⟩
    rcases content_of_isCanonical h with hc | ⟨content, rfl⟩
    · exact ihc hc
    · exact separate_ofContent content

end Forest
end

namespace Document

theorem parse_render {forest : Forest} (h : forest.IsCanonical) :
    parse forest.render = .ok (ofForest forest.escaped) := by
  have hall := Token.all_render h.wellFormed h.apart h.separate (.inl rfl)
  have hnil : Token.all [] = .ok [] := by rw [Token.all]
  rw [List.append_nil, hnil] at hall
  refine parse_eq_ok_iff.2 ⟨_, hall.trans (congrArg Except.ok (List.append_nil _)), ?_⟩
  rw [Forest.ofTokens_tokens (Forest.wellFormed_escaped h.wellFormed)]

/-- A document whose tree is canonical is read back from its printed form: the same tree, with the
double quotes of attribute values as `&quot;`, its nodes numbered in document order. -/
theorem parse_serialize_of_isCanonical {doc : Document} (h : doc.toForest.IsCanonical) :
    parse doc.serialize = .ok (ofForest doc.toForest.escaped) := by
  simpa [serialize] using parse_render h

/-- Texts that end in a brace, comments that end in a dash, an element inside one of its own name, raw
text with markup in it, a void element, one that closes itself, and a quote in a value. -/
theorem parse_serialize_letter :
    let p (children next : Forest) := Forest.element ⟨['p'], [], false⟩ children next
    let doc := ofForest (.leaf (.declaration "<!DOCTYPE html>".toList) (p
      (.leaf (.text "a <".toList) (p (.leaf (.comment ['-']) .nil) (.element
        ⟨"br".toList, [⟨"hidden".toList, none⟩, ⟨"title".toList, some "\"".toList⟩], false⟩ .nil
          (.element ⟨['x'], [], true⟩ .nil .nil))))
      (.element ⟨"style".toList, [], false⟩ (.leaf (.text "</p> { }".toList) .nil)
        (.leaf (.text "</".toList) .nil))))
    doc.toForest.IsCanonical ∧ parse doc.serialize = .ok (ofForest doc.toForest.escaped) := by
  intro p doc
  have h : doc.toForest.IsCanonical := by
    rw [toForest_ofForest]
    decide +kernel
  exact ⟨h, parse_serialize_of_isCanonical h⟩

end Document
end MailTemplate
