import MailTemplate.Proofs.Markup.Reading

/-! Printed forests. What a well-formed forest prints is read as the tokens of the forest, token by
token, as long as no two texts stand side by side and the attributes of every tag are apart. -/

namespace MailTemplate

namespace Element

/-- An element with its attribute values as they are written. -/
def escaped (element : Element) : Element :=
  { element with attributes := element.attributes.map Attribute.escaped }

@[simp] theorem name_escaped (element : Element) : element.escaped.name = element.name := rfl

@[simp] theorem isLeaf_escaped (element : Element) : element.escaped.isLeaf = element.isLeaf := rfl

@[simp] theorem isRaw_escaped (element : Element) : element.escaped.isRaw = element.isRaw := rfl

@[simp] theorem closing_escaped (element : Element) : element.escaped.closing = element.closing :=
  rfl

theorem opening_eq (element : Element) :
    element.opening = '<' :: (element.name ++ Attribute.textAll element.attributes) := rfl

theorem closing_eq_or {element : Element} (h : element.isRaw = true) :
    element.closing = "</style".toList ∨ element.closing = "</script".toList := by
  simp only [isRaw, rawNames, List.map_cons, List.map_nil, List.contains_eq_mem,
    List.mem_cons, List.not_mem_nil, or_false, decide_eq_true_eq] at h
  rcases h with h | h
  · exact .inl (by rw [closing, h]; rfl)
  · exact .inr (by rw [closing, h]; rfl)

theorem unbordered_closing {element : Element} (h : element.isRaw = true) :
    Text.Unbordered element.closing := by
  rcases closing_eq_or h with h | h
  · rw [h]
    decide
  · rw [h]
    decide

end Element

namespace Token

section
variable {element : Element} {rest : Text}

theorem isStopChar_of_isNameChar {c : Char} (h : isNameChar c = true) : isStopChar c = true := by
  simp only [isNameChar, Bool.and_eq_true] at h
  simp [isStopChar, h.1.1, h.2]

/-- Whatever its attributes are read as, a start tag is read with the name that was written. -/
theorem scan_opening_eq_ok_iff (hw : element.WellFormed) {ending : Text}
    (he : ∀ c ∈ (Attribute.textAll element.attributes ++ ending).head?, c = ' ' ∨ c = '>')
    {token : Token × Text} :
    scan (element.opening ++ ending) = .ok token ↔
      ∃ attributes selfClosing after, attributes? (Attribute.textAll element.attributes ++ ending) =
          some (attributes, selfClosing, after) ∧
        ofStart ⟨element.name, attributes, selfClosing⟩ after = token := by
  obtain ⟨c, name, hn, hc⟩ := hw.leading
  have hl : Lead.ofText (element.opening ++ ending) = .start := by
    rw [Element.opening_eq, hn]
    exact Lead.ofText_start hc _
  have hd : (element.opening ++ ending).drop 1 =
      element.name ++ (Attribute.textAll element.attributes ++ ending) := by
    simp [Element.opening_eq]
  have hout : ∀ c ∈ (Attribute.textAll element.attributes ++ ending).head?,
      isNameChar c = false := by
    intro c hc
    rcases he c hc with rfl | rfl <;> decide
  have hscan : scan (element.opening ++ ending) =
      startTag (element.name ++ (Attribute.textAll element.attributes ++ ending)) := by
    rw [← hd]
    unfold scan
    rw [hl]
  rw [hscan]
  unfold startTag
  rw [Text.takeWhile_run hw.chars hout, Text.dropWhile_run hw.chars hout, hw.lower]
  cases hattr : attributes? (Attribute.textAll element.attributes ++ ending) with
  | none => simp
  | some read =>
    obtain ⟨attributes, selfClosing, after⟩ := read
    constructor
    · intro h
      exact ⟨_, _, _, rfl, Except.ok.inj h⟩
    · rintro ⟨_, _, _, h, rfl⟩
      cases h
      rfl

theorem scan_opening_of_separate {ending : Text} (hw : element.WellFormed)
    (hs : Attribute.Separate element.attributes) (he : Ending ending element.selfClosing rest) :
    scan (element.opening ++ ending) = .ok (ofStart element.escaped rest) := by
  exact (scan_opening_eq_ok_iff hw (outside_textAll he)).2
    ⟨_, _, _, attributes?_textAll hw.attributes hs he, rfl⟩

theorem scan_stop (hw : element.WellFormed) :
    scan (element.closing ++ '>' :: rest) = .ok (stop element.name, rest) := by
  obtain ⟨c, name, hn, hc⟩ := hw.leading
  have hl : Lead.ofText (element.closing ++ '>' :: rest) = .stop := by
    rw [Element.closing, hn]
    exact Lead.ofText_stop hc _
  have hchars : ∀ c ∈ element.name, isStopChar c = true := fun c hc =>
    isStopChar_of_isNameChar (hw.chars c hc)
  have hout : ∀ c ∈ ('>' :: rest).head?, isStopChar c = false := by
    intro c hc
    rw [← Option.some.inj hc]
    decide
  have hd : (element.closing ++ '>' :: rest).drop 2 = element.name ++ '>' :: rest := rfl
  unfold scan
  rw [hl]
  simp only [hd, stopTag, Text.takeWhile_run hchars hout, Text.dropWhile_run hchars hout,
    hw.lower]
  have hcut : Text.cut? ['>'] ('>' :: rest) = some ([], rest) := Text.cut?_cons_here rfl
  rw [hcut]

theorem plainText_append_of_isPlain {text : Text} (h : Text.IsPlain text)
    (hr : rest = [] ∨ Lead.ofText rest ≠ .text) : plainText (text ++ rest) = (text, rest) := by
  have hb : ∀ c ∈ rest.head?, c = '<' := by
    intro c hc
    rcases hr with rfl | hr
    · cases hc
    · rw [Lead.ofText_ne_text_iff] at hr
      rcases hr with ⟨d, t, rfl, -⟩ | ⟨d, t, rfl, -⟩ <;> exact (Option.some.inj hc).symm
  induction text with
  | nil =>
    rcases hr with rfl | hr
    · rfl
    · cases rest with
      | nil => rfl
      | cons c rest => simp [plainText, hr]
  | cons c text ih =>
    have hl : Lead.ofText (c :: (text ++ rest)) = .text :=
      Lead.ofText_append_eq_text (List.cons_ne_nil c text) (h _ List.suffix_rfl) hb
    simp [plainText, hl, ih (h.of_suffix (List.suffix_cons _ _))]

theorem ofText_declaration_append {before : Text}
    (h : Lead.ofText (before ++ ['>']) = .declaration) (rest : Text) :
    Lead.ofText (before ++ ['>'] ++ rest) = .declaration := by
  rw [Lead.ofText_eq_declaration_iff] at h ⊢
  rcases h with ⟨r, hr⟩ | ⟨r, hr, hn⟩
  · exact .inl ⟨r ++ rest, by rw [hr]; rfl⟩
  · refine .inr ⟨r ++ rest, by rw [hr]; rfl, fun hp => hn ?_⟩
    have hs : '<' :: '!' :: r = before ++ ['>'] ++ [] := hr.symm.trans (List.append_nil _).symm
    obtain ⟨inner, -, he⟩ := exists_eq_of_append (by decide) hs
    rw [List.append_nil] at he
    cases inner with
    | nil =>
      rw [he] at hp
      exact absurd (List.cons_prefix_cons.1 hp).1 (by decide)
    | cons c inner =>
      refine List.prefix_of_prefix_length_le hp (List.prefix_append _ _) ?_
      simp [he]

/-- A leaf is read back; a text has to end where markup begins or the whole text ends. -/
theorem scan_source {leaf : Leaf} (hw : leaf.WellFormed)
    (hr : ∀ content, leaf = .text content → rest = [] ∨ Lead.ofText rest ≠ .text) :
    scan (leaf.source ++ rest) = .ok (.leaf leaf, rest) := by
  cases leaf with
  | text content =>
    have hp := plainText_append_of_isPlain hw.2 (hr content rfl)
    have hl : Lead.ofText (content ++ rest) = .text := by
      cases content with
      | nil => exact absurd rfl hw.1
      | cons c content =>
        by_contra hne
        rw [List.cons_append] at hp hne
        simp [plainText, hne] at hp
    unfold scan
    simp only [Leaf.source, hl, hp]
  | comment body =>
    have hc := Text.cut?_append rest (by decide) hw
    have hd : (Leaf.comment body).source ++ rest = '<' :: '!' :: '-' :: '-' ::
        (body ++ "-->".toList ++ rest) := by simp [Leaf.source]
    unfold scan
    rw [hd]
    simp only [Lead.ofText, List.drop_succ_cons, List.drop_zero, hc]
  | declaration source =>
    obtain ⟨hl, before, hb, rfl⟩ := hw
    have hc := Text.cut?_singleton_append rest hb
    unfold scan
    rw [Leaf.source, ofText_declaration_append hl]
    simp only [List.append_assoc, List.singleton_append, hc]

theorem ofStart_leaf (h : element.isLeaf = true) :
    ofStart element rest = (complete element [], rest) := by
  have h' : (element.selfClosing || element.isVoid) = true := h
  simp [ofStart, h']

theorem ofStart_start (h : element.isLeaf = false) (hr : element.isRaw = false) :
    ofStart element rest = (start element, rest) := by
  have h' : (element.selfClosing || element.isVoid) = false := h
  simp [ofStart, h', hr]

theorem ofStart_raw {content : Text} (rest : Text) (h : element.isLeaf = false) (hr : element.isRaw = true)
    (hc : ¬ element.closing <:+: Text.lower content) :
    ofStart element (content ++ element.closing ++ '>' :: rest) =
      (complete element content, rest) := by
  have h' : (element.selfClosing || element.isVoid) = false := h
  have hlow : Text.lower (content ++ element.closing ++ '>' :: rest) =
      Text.lower content ++ element.closing ++ Text.lower ('>' :: rest) := by
    rcases Element.closing_eq_or hr with he | he <;> rw [he] <;> simp
  have hcut := Text.cut?_append (Text.lower ('>' :: rest))
    (Element.unbordered_closing hr) hc
  have hraw : rawContent element.name (content ++ element.closing ++ '>' :: rest) =
      (content, element.closing ++ '>' :: rest) := by
    unfold rawContent
    rw [hlow]
    unfold Element.closing at hcut ⊢
    rw [hcut]
    simp
  have hbrace : '>' ∉ element.closing := by
    rcases Element.closing_eq_or hr with he | he <;> rw [he] <;> decide
  simp only [ofStart, h', hr, Bool.false_eq_true, if_false, if_true, hraw, afterBrace,
    Text.cut?_singleton_append _ hbrace, Option.elim_some]

end
end Token
end MailTemplate
