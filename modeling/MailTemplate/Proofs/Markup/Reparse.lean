import MailTemplate.Proofs.Markup.PrintedForest

/-! Reading a document again after it was written. The tree comes back with its neighbouring texts
joined and its values as they are written exactly if no joined text begins markup and no attribute
without a value stands in front of a stray `=`. -/

namespace MailTemplate
namespace Forest

/-- A leaf in front of a forest; a text runs into the text that follows it. -/
def join : Leaf → Forest → Forest
  | .text front, leaf (.text back) next => leaf (.text (front ++ back)) next
  | l, next => leaf l next

def merge : Forest → Forest
  | nil => nil
  | leaf l next => join l next.merge
  | element e children next => element e children.merge next.merge

theorem join_eq (l : Leaf) (next : Forest) :
    (∃ front back rest, l = .text front ∧ next = leaf (.text back) rest ∧
      join l next = leaf (.text (front ++ back)) rest) ∨
      ((l.isText = true → next.leadsText = false) ∧ join l next = leaf l next) := by
  unfold join
  split
  · next front back rest => exact .inl ⟨front, back, rest, rfl, rfl, rfl⟩
  · next hne =>
    refine .inr ⟨fun hl => ?_, rfl⟩
    cases l with
    | text front =>
      cases next with
      | leaf l' rest =>
        cases l' with
        | text back => exact absurd rfl (hne front back rest rfl)
        | comment => rfl
        | declaration => rfl
      | nil => rfl
      | element => rfl
    | comment => cases hl
    | declaration => cases hl

@[simp] theorem merge_ofContent (text : Text) : (ofContent text).merge = ofContent text := by
  by_cases h : text = []
  · simp [ofContent, merge, h]
  · simp [ofContent, merge, join, h]

@[simp] theorem isEmpty_merge (forest : Forest) : forest.merge.isEmpty = forest.isEmpty := by
  cases forest with
  | nil => rfl
  | element => rfl
  | leaf l next =>
    rcases join_eq l next.merge with ⟨front, back, rest, -, -, hj⟩ | ⟨-, hj⟩ <;>
      rw [merge, hj] <;> rfl

@[simp] theorem render_merge (forest : Forest) : forest.merge.render = forest.render := by
  induction forest with
  | nil => rfl
  | leaf l next ih =>
    rcases join_eq l next.merge with ⟨front, back, rest, rfl, hn, hj⟩ | ⟨-, hj⟩
    · rw [merge, hj, render, render, ← ih, hn, render]
      simp [Leaf.source]
    · rw [merge, hj, render, render, ih]
  | element e children next ihc ihn => rw [merge, render, render, ihc, ihn, isEmpty_merge]

theorem apart_merge (forest : Forest) : forest.merge.Apart := by
  induction forest with
  | nil => trivial
  | leaf l next ih =>
    rcases join_eq l next.merge with ⟨front, back, rest, rfl, hn, hj⟩ | ⟨ha, hj⟩
    · rw [merge, hj]
      rw [hn] at ih
      exact ⟨fun _ => ih.1 rfl, ih.2⟩
    · rw [merge, hj]
      exact ⟨ha, ih⟩
  | element e children next ihc ihn => exact ⟨ihc, ihn⟩

theorem separate_join {l : Leaf} {next : Forest} : (join l next).Separate ↔ next.Separate := by
  rcases join_eq l next with ⟨front, back, rest, -, rfl, hj⟩ | ⟨-, hj⟩ <;> rw [hj] <;> rfl

@[simp] theorem separate_merge {forest : Forest} : forest.merge.Separate ↔ forest.Separate := by
  induction forest with
  | nil => rfl
  | leaf l next ih => rw [merge, separate_join, ih, Separate]
  | element e children next ihc ihn => rw [merge, Separate, Separate, ihc, ihn]

/-- Outside raw elements no text begins markup. -/
def Plain : Forest → Prop
  | nil => True
  | leaf l next => (∀ content, l = .text content → Text.IsPlain content) ∧ next.Plain
  | element e children next => (e.isRaw = false → children.Plain) ∧ next.Plain

theorem plain_of_wellFormed {forest : Forest} (h : forest.WellFormed) : forest.Plain := by
  induction forest with
  | nil => trivial
  | leaf l next ih =>
    refine ⟨?_, ih h.2⟩
    rintro content rfl
    exact h.1.2
  | element e children next ihc ihn =>
    refine ⟨fun hr => ?_, ihn h.2.2⟩
    rcases h.content_cases with ⟨-, rfl⟩ | ⟨-, hr', -⟩ | ⟨-, -, hc⟩
    · trivial
    · rw [hr] at hr'
      cases hr'
    · exact ihc hc

@[simp] theorem plain_escaped {forest : Forest} : forest.escaped.Plain ↔ forest.Plain := by
  induction forest with
  | nil => rfl
  | leaf l next ih => rw [escaped, Plain, Plain, ih]
  | element e children next ihc ihn => rw [escaped, Plain, Plain, ihc, ihn, Element.isRaw_escaped]

theorem wellFormed_merge {forest : Forest} (h : forest.WellFormed) (hp : forest.merge.Plain) :
    forest.merge.WellFormed := by
  induction forest with
  | nil => trivial
  | leaf l next ih =>
    rw [merge] at hp ⊢
    rcases join_eq l next.merge with ⟨front, back, rest, rfl, hn, hj⟩ | ⟨-, hj⟩
    · rw [hj] at hp ⊢
      have hback : next.merge.Plain := by
        rw [hn]
        refine ⟨fun c hc => ?_, hp.2⟩
        obtain rfl := Leaf.text.inj hc
        exact (hp.1 _ rfl).of_suffix (List.suffix_append _ _)
      have hw := ih h.2 hback
      rw [hn] at hw
      exact ⟨⟨List.append_ne_nil_of_left_ne_nil h.1.1 _, hp.1 _ rfl⟩, hw.2⟩
    · rw [hj] at hp ⊢
      exact ⟨h.1, ih h.2 hp.2⟩
  | element e children next ihc ihn =>
    refine wellFormed_element_iff.2 ⟨h.1, ihn h.2.2 hp.2, ?_⟩
    rcases h.content_cases with ⟨hl, rfl⟩ | ⟨hl, hr, text, rfl, ht⟩ | ⟨hl, hr, hc⟩
    · exact .inl ⟨hl, rfl⟩
    · exact .inr (.inl ⟨hl, hr, text, merge_ofContent text, ht⟩)
    · exact .inr (.inr ⟨hl, hr, ihc hc (hp.1 hr)⟩)

theorem wellFormed_escaped {forest : Forest} (h : forest.WellFormed) :
    forest.escaped.WellFormed := by
  induction forest with
  | nil => trivial
  | leaf l next ih => exact ⟨h.1, ih h.2⟩
  | element e children next ihc ihn =>
    have he : e.escaped.WellFormed := by
      refine ⟨h.1.leading, h.1.chars, h.1.lower, fun attr ha => ?_⟩
      obtain ⟨a, hm, rfl⟩ := List.mem_map.1 ha
      exact h.1.attributes a hm
    refine wellFormed_element_iff.2 ⟨he, ihn h.2.2, ?_⟩
    rcases h.content_cases with ⟨hl, rfl⟩ | ⟨hl, hr, text, rfl, ht⟩ | ⟨hl, hr, hc⟩
    · exact .inl ⟨hl, rfl⟩
    · exact .inr (.inl ⟨hl, hr, text, escaped_ofContent text, ht⟩)
    · exact .inr (.inr ⟨hl, hr, ihc hc⟩)

theorem isEmpty_escaped (forest : Forest) : forest.escaped.isEmpty = forest.isEmpty := by
  cases forest <;> rfl

@[simp] theorem render_escaped (forest : Forest) : forest.escaped.render = forest.render := by
  induction forest with
  | nil => rfl
  | leaf l next ih => rw [escaped, render, render, ih]
  | element e children next ihc ihn =>
    have ha : ∀ attr : Attribute, attr.escaped.text = attr.text := by
      intro attr
      cases hv : attr.value <;> simp [Attribute.text, Attribute.escaped, hv]
    have ho : e.escaped.opening = e.opening := by
      simp [Element.opening_eq, Element.escaped, Attribute.textAll, List.flatMap_map, ha]
    rw [escaped, render, render, ihc, ihn, isEmpty_escaped]
    simp only [wrap, ho, Element.name_escaped]
    rfl

def labels : Forest → List NodeData
  | nil => []
  | leaf l next => .leaf l :: next.labels
  | element e children next => .element e :: (children.labels ++ next.labels)

end Forest

namespace Token

def labels : Token → List NodeData
  | leaf l => [.leaf l]
  | complete e content => .element e :: (Forest.ofContent content).labels
  | start e => [.element e]
  | stop _ => []

theorem labels_ofStart (element : Element) (rest : Text) :
    ∃ later, (ofStart element rest).1.labels = .element element :: later := by
  unfold ofStart
  split
  · exact ⟨_, rfl⟩
  · split <;> exact ⟨_, rfl⟩

end Token

namespace Forest

/-- Tokens add their nodes in order, whatever the levels are that the nodes end up on. -/
theorem labels_grow (tokens : List Token) (opened : List Text) :
    (grow tokens opened).1.labels ++ (grow tokens opened).2.flatMap labels =
      tokens.flatMap Token.labels := by
  induction tokens generalizing opened with
  | nil =>
    induction opened with
    | nil => rfl
    | cons name opened ih => simp [grow, labels]
  | cons token tokens ih =>
    cases token with
    | leaf l => simp [grow, labels, Token.labels, ← ih opened]
    | complete e content => simp [grow, labels, Token.labels, ← ih opened]
    | start e =>
      have ih := ih (e.name :: opened)
      rw [List.flatMap_cons, ← ih]
      cases hg : (grow tokens (e.name :: opened)).2 with
      | nil => simp [grow, labels, Token.labels, hg]
      | cons f fs => simp [grow, labels, Token.labels, hg]
    | stop name =>
      simp only [grow]
      split
      · exact ih opened
      · next i _ =>
        have hnil : (List.replicate i nil).flatMap labels = [] := by
          simp [List.flatMap_eq_nil_iff, labels]
        simp [labels, Token.labels, hnil, ← ih (opened.drop (i + 1))]

theorem labels_ofTokens (tokens : List Token) :
    (ofTokens tokens).labels = tokens.flatMap Token.labels := by
  have hg := labels_grow tokens []
  have hnil : (grow tokens []).2 = [] := List.length_eq_zero_iff.1 (length_grow tokens [])
  rwa [hnil, List.flatMap_nil, List.append_nil] at hg

theorem labels_tokens {forest : Forest} (h : forest.WellFormed) :
    forest.tokens.flatMap Token.labels = forest.labels := by
  rw [← labels_ofTokens, ofTokens_tokens h]

end Forest

namespace Token

theorem all_eq_ok {source : Text} {tokens : List Token} (hs : source ≠ [])
    (h : all source = .ok tokens) : ∃ token rest later, scan source = .ok (token, rest) ∧
      all rest = .ok later ∧ tokens = token :: later := by
  cases source with
  | nil => exact absurd rfl hs
  | cons c source =>
    rw [all] at h
    split at h
    · cases h
    · next token rest hscan =>
      cases ha : all rest with
      | error fault =>
        rw [ha] at h
        cases h
      | ok later =>
        rw [ha] at h
        exact ⟨token, rest, later, hscan, ha, (Except.ok.inj h).symm⟩

theorem map_append_eq_ok {result : Except (Fault × Text) (List Token)} {front tokens : List Token}
    (h : result.map (front ++ ·) = .ok tokens) :
    ∃ later, result = .ok later ∧ tokens = front ++ later := by
  cases result with
  | error => cases h
  | ok later => exact ⟨later, rfl, (Except.ok.inj h).symm⟩

theorem map_cons_eq_ok {result : Except (Fault × Text) (List Token)} {token : Token}
    {tokens : List Token} (h : result.map (token :: ·) = .ok tokens) :
    ∃ later, result = .ok later ∧ tokens = token :: later := by
  cases result with
  | error => cases h
  | ok later => exact ⟨later, rfl, (Except.ok.inj h).symm⟩

/-- A start tag that is read as the element that was written had its attributes apart. -/
theorem separate_of_labels {element : Element} {ending rest : Text} {selfClosing : Bool}
    {tokens : List Token} {later : List NodeData} (hw : element.WellFormed)
    (he : Ending ending selfClosing rest) (h : all (element.opening ++ ending) = .ok tokens)
    (hl : .element element.escaped :: later <+: tokens.flatMap labels) :
    Attribute.Separate element.attributes := by
  obtain ⟨token, after, others, hscan, -, rfl⟩ := all_eq_ok (opening_ne_nil _ _) h
  obtain ⟨attributes, closing, after', hattr, htoken⟩ :=
    (scan_opening_eq_ok_iff hw (outside_textAll he)).1 hscan
  obtain ⟨inner, hinner⟩ := labels_ofStart ⟨element.name, attributes, closing⟩ after'
  rw [htoken] at hinner
  rw [List.flatMap_cons, hinner, List.cons_append, List.cons_prefix_cons] at hl
  have ha : element.attributes.map Attribute.escaped = attributes :=
    congrArg Element.attributes (NodeData.element.inj hl.1)
  rw [← ha] at hattr
  exact separate_of_attributes? hw.attributes he hattr

/-- A printed forest that is read as the nodes that were written had all attributes apart. -/
theorem separate_of_all {forest : Forest} {rest : Text} {tokens : List Token}
    (hw : forest.WellFormed) (ha : forest.Apart) (hr : rest = [] ∨ Lead.ofText rest ≠ .text)
    (h : all (forest.render ++ rest) = .ok tokens)
    (hl : forest.escaped.labels <+: tokens.flatMap labels) : forest.Separate := by
  induction forest generalizing rest tokens with
  | nil => trivial
  | leaf l next ih =>
    have hn : ∀ content, l = .text content →
        next.render ++ rest = [] ∨ Lead.ofText (next.render ++ rest) ≠ .text := by
      rintro content rfl
      exact Forest.lead_render hw.2 (ha.1 rfl) hr
    have hne : l.source ++ (next.render ++ rest) ≠ [] := fun he =>
      Leaf.source_ne_nil hw.1 (List.append_eq_nil_iff.1 he).1
    rw [Forest.render, List.append_assoc, all_of_scan hne (scan_source hw.1 hn)] at h
    obtain ⟨later, hlater, rfl⟩ := map_cons_eq_ok h
    exact ih hw.2 ha.2 hr hlater (List.cons_prefix_cons.1 hl).2
  | element e children next ihc ihn =>
    rw [Forest.render, List.append_assoc] at h
    rw [Forest.escaped, Forest.labels] at hl
    rcases hw.content_cases with ⟨hleaf, rfl⟩ | ⟨hleaf, hraw, text, rfl, ht⟩ | ⟨hleaf, hraw, hc⟩
    · rw [Forest.isEmpty, Forest.render, Forest.wrap_leaf hleaf, List.append_assoc] at h
      have hs := separate_of_labels hw.1 (Forest.ending_leaf e _) h hl
      rw [all_leaf _ hw.1 hs hleaf] at h
      obtain ⟨later, hlater, rfl⟩ := map_cons_eq_ok h
      have hl' := (List.cons_prefix_cons.1 hl).2
      exact ⟨hs, trivial, ihn hw.2.2 ha.2 hr hlater hl'⟩
    · have hp : e.opening ++ '>' :: (text ++ e.closing ++ ['>']) ++ (next.render ++ rest) =
          e.opening ++ '>' :: (text ++ e.closing ++ '>' :: (next.render ++ rest)) := by simp
      rw [Forest.render_ofContent, Forest.wrap_open hleaf, hp] at h
      have hs := separate_of_labels hw.1 (Forest.ending_open hleaf _) h hl
      rw [all_raw _ hw.1 hs hleaf hraw ht] at h
      obtain ⟨later, hlater, rfl⟩ := map_cons_eq_ok h
      have hl' := (List.cons_prefix_cons.1 hl).2
      rw [Forest.escaped_ofContent] at hl'
      have hn := (List.prefix_append_right_inj _).1 hl'
      exact ⟨hs, Forest.separate_ofContent text, ihn hw.2.2 ha.2 hr hlater hn⟩
    · have hp : e.opening ++ '>' :: (children.render ++ e.closing ++ ['>']) ++
          (next.render ++ rest) =
            e.opening ++ '>' :: (children.render ++ (e.closing ++ '>' :: (next.render ++ rest))) := by
        simp
      rw [Forest.wrap_open hleaf, hp] at h
      have hs := separate_of_labels hw.1 (Forest.ending_open hleaf _) h hl
      rw [all_start _ hw.1 hs hleaf hraw] at h
      obtain ⟨later, hlater, rfl⟩ := map_cons_eq_ok h
      have hl' : children.escaped.labels ++ next.escaped.labels <+: later.flatMap labels :=
        (List.cons_prefix_cons.1 hl).2
      have hstop : e.closing ++ '>' :: (next.render ++ rest) = [] ∨
          Lead.ofText (e.closing ++ '>' :: (next.render ++ rest)) ≠ .text :=
        .inr (Forest.ofText_closing hw.1 _)
      have hsc := ihc hc ha.1 hstop hlater ((List.prefix_append _ _).trans hl')
      rw [all_render hc ha.1 hsc hstop, all_stop _ hw.1] at hlater
      obtain ⟨after, hafter, rfl⟩ := map_append_eq_ok hlater
      obtain ⟨others, hothers, rfl⟩ := map_cons_eq_ok hafter
      rw [List.flatMap_append, Forest.labels_tokens (Forest.wellFormed_escaped hc)] at hl'
      have hn := (List.prefix_append_right_inj _).1 hl'
      exact ⟨hs, hsc, ihn hw.2.2 ha.2 hr hothers hn⟩

end Token

namespace Document

theorem wellFormed_of_parse {source : Text} {doc : Document} (h : parse source = .ok doc) :
    doc.toForest.WellFormed := by
  obtain ⟨tokens, ht, rfl⟩ := parse_eq_ok_iff.1 h
  rw [toForest_ofForest]
  exact Forest.wellFormed_ofTokens (Token.wellFormed_of_all ht)

/-- The written document is read as the same tree, with neighbouring texts joined and values as they
are written, exactly if no joined text begins markup and the attributes of every tag are apart. -/
theorem parse_serialize_iff {source : Text} {doc : Document} (h : parse source = .ok doc) :
    (∃ again, parse doc.serialize = .ok again ∧ again.toForest = doc.toForest.merge.escaped ∧
        again.serialize = doc.serialize) ↔
      doc.toForest.merge.Plain ∧ doc.toForest.Separate := by
  have hw := wellFormed_of_parse h
  have hrender : doc.serialize = doc.toForest.merge.render ++ [] := by simp [serialize]
  constructor
  · rintro ⟨again, hagain, htree, -⟩
    have hplain : doc.toForest.merge.Plain := by
      rw [← Forest.plain_escaped, ← htree]
      exact Forest.plain_of_wellFormed (wellFormed_of_parse hagain)
    refine ⟨hplain, Forest.separate_merge.1 ?_⟩
    obtain ⟨tokens, ht, rfl⟩ := parse_eq_ok_iff.1 hagain
    rw [hrender] at ht
    refine Token.separate_of_all (Forest.wellFormed_merge hw hplain) (Forest.apart_merge _) (.inl rfl)
      ht ?_
    rw [← htree, toForest_ofForest, Forest.labels_ofTokens]
  · rintro ⟨hplain, hsep⟩
    have hmerge := Forest.wellFormed_merge hw hplain
    have hall := Token.all_render hmerge (Forest.apart_merge _) (Forest.separate_merge.2 hsep)
      (.inl rfl)
    have hnil : Token.all [] = .ok [] := by rw [Token.all]
    rw [← hrender, hnil] at hall
    refine ⟨ofForest doc.toForest.merge.escaped, ?_, toForest_ofForest _, ?_⟩
    · refine parse_eq_ok_iff.2 ⟨_, hall.trans (congrArg Except.ok (List.append_nil _)), ?_⟩
      rw [Forest.ofTokens_tokens (Forest.wellFormed_escaped hmerge)]
    · rw [serialize_ofForest, Forest.render_escaped, Forest.render_merge, serialize]

/-- Texts around a dropped end tag are joined when the document is read again. -/
theorem parse_serialize_joined :
    ∃ doc, parse "a</b>c<!--d-->".toList = .ok doc ∧
      ∃ again, parse doc.serialize = .ok again ∧ again.toForest = doc.toForest.merge.escaped ∧
        again.serialize = doc.serialize := by
  have h : parse "a</b>c<!--d-->".toList = .ok (ofForest (.leaf (.text ['a'])
      (.leaf (.text ['c']) (.leaf (.comment ['d']) .nil)))) := by cbv
  refine ⟨_, h, (parse_serialize_iff h).2 ⟨?_, ?_⟩⟩
  · rw [toForest_ofForest]
    refine ⟨?_, ?_, trivial⟩
    · rintro content hc
      obtain rfl := Leaf.text.inj hc
      decide
    · rintro content hc
      cases hc
  · rw [toForest_ofForest]
    trivial

/-- A lone brace and the text behind a dropped end tag are written as a tag that never ends. -/
theorem parse_serialize_unterminated :
    ∃ doc, parse "<</p>b".toList = .ok doc ∧ ∀ again, parse doc.serialize ≠ .ok again := by
  have h : parse "<</p>b".toList = .ok (ofForest (.leaf (.text ['<'])
      (.leaf (.text ['b']) .nil))) := by cbv
  refine ⟨_, h, fun again hagain => ?_⟩
  rw [serialize_ofForest] at hagain
  obtain ⟨tokens, ht, -⟩ := parse_eq_ok_iff.1 hagain
  obtain ⟨token, rest, later, hscan, -⟩ := Token.all_eq_ok (List.cons_ne_nil _ _) ht
  have hattr : attributes? [] = none := by simp [attributes?, Text.dropSpace]
  have hfault : Token.scan ['<', 'b'] = .error .tag := by
    have hname : ['b'].dropWhile Token.isNameChar = [] := by decide
    change Token.startTag ['b'] = _
    unfold Token.startTag
    rw [hname, hattr]
  exact absurd (hfault.symm.trans hscan) (by simp)

end Document
end MailTemplate
