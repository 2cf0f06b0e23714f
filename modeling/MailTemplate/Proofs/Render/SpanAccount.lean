import MailTemplate.Proofs.Markup.SpansKept

/-! The account of spans for the markup stage: where every span of a text stands, which of them the text
with tables has, and when these are all. -/

namespace MailTemplate
open Guard

/-- The name of the element that a node is. -/
def NodeData.names : NodeData → List Text
  | element e => [e.name]
  | _ => []

/-- What the account asks of a text and its markup. Names of elements hold no part of a span. No tag
of the layout is cut, or holds a quote inside a value; every other span is hidden, so that nothing cuts
it. For each kind of span, no loose brace begins one where texts come to stand side by side, or nothing
ends one. -/
structure Document.Tame (guard : Guard) (hidden : Text) (doc : Document) : Prop where
  names : ∀ name ∈ doc.labels.flatMap NodeData.names, '{' ∉ name ∧ opener ∉ name
  uncut : (∀ part ∈ doc.kept ++ doc.lost ++ Token.passedAll hidden,
      Span.IsClosed .tag (guard.reveal part)) ∨
    ∀ span ∈ guard.spansOf hidden, ¬ span.isStructural = true
  closed : ∀ kind : SpanKind, (∀ part ∈ doc.kept, Span.IsClosed kind (guard.reveal part)) ∨
    ¬ kind.closer <:+: guard.reveal (Render.markup hidden).1
  quotes : ∀ value ∈ doc.labels.flatMap NodeData.values, ∀ span ∈ guard.spansOf value,
    span.isStructural = true → '"' ∉ span.text

namespace NodeData

theorem mem_kept_of_mem_values {node : NodeData} {value : Text} (h : value ∈ node.values) :
    value ∈ node.kept := by
  cases node with
  | document => cases h
  | leaf l => cases h
  | element e =>
    cases ho : CustomTag.of? e with
    | some tag =>
      simp only [values, kept, ho] at h ⊢
      exact h
    | none =>
      simp only [values, kept, ho] at h ⊢
      obtain ⟨attr, hm, hv⟩ := List.mem_filterMap.1 h
      refine List.mem_flatMap.2 ⟨attr, hm, ?_⟩
      simp [Attribute.parts, hv]

end NodeData

namespace Document

theorem perm_parts (doc : Document) :
    (doc.kept ++ doc.lost).Perm (doc.labels.flatMap NodeData.parts) := by
  unfold kept lost
  induction doc.labels with
  | nil => exact .refl _
  | cons node labels ih =>
    simp only [List.flatMap_cons]
    have hswap : (labels.flatMap NodeData.kept ++ node.lost).Perm
        (node.lost ++ labels.flatMap NodeData.kept) := List.perm_append_comm
    have hmove := hswap.append_right (labels.flatMap NodeData.lost)
    have hnode := node.perm_parts.append ih
    rw [List.append_assoc] at hmove hnode
    rw [List.append_assoc]
    rw [List.append_assoc] at hmove
    exact (hmove.append_left _).trans hnode

section
variable {guard : Guard} {source hidden : Text} {doc : Document}

theorem hasPlainName_of_names {tokens : List Token} (h : ∀ name ∈
      (tokens.flatMap Token.labels).flatMap NodeData.names, '{' ∉ name ∧ opener ∉ name) :
    ∀ token ∈ tokens, token.HasPlainName := by
  intro token hm
  have hname : ∀ e, .element e ∈ token.labels → e.HasPlainName := fun e he =>
    h e.name (List.mem_flatMap.2 ⟨_, List.mem_flatMap.2 ⟨token, hm, he⟩, List.mem_cons_self⟩)
  cases token with
  | leaf l => trivial
  | complete e content => exact hname e List.mem_cons_self
  | start e => exact hname e List.mem_cons_self
  | stop name => trivial

theorem isPlain_of_names (issued : guard.IsIssued) {pieces : List (Piece Span)}
    (hw : Written guard pieces hidden) {tokens : List Token} (ht : Token.all hidden = .ok tokens)
    {e : Element} (he : .element e ∈ tokens.flatMap Token.labels) (hn : e.HasPlainName) :
    IsPlain e.name := by
  have hwords := isWord_of_isPlaceholder issued
  have hsound : ∀ token ∈ tokens, token.Sound guard.IsPlaceholder IsWord :=
    sound_all hwords (fun word h => (hwords word h).lower) hw.sound ht
  obtain ⟨token, hm, he⟩ := List.mem_flatMap.1 he
  have hname : Guard.Sound IsWord e.name := by
    have hs := hsound token hm
    cases token with
    | leaf l => simp [Token.labels] at he
    | start element =>
      obtain rfl : e = element := by simpa [Token.labels] using he
      exact hs.name
    | complete element content =>
      have hce : e = element := by
        rcases List.mem_cons.1 he with he | he
        · exact NodeData.element.inj he
        · unfold Forest.ofContent at he
          split at he
          · cases he
          · simp [Forest.labels] at he
      rw [hce]
      exact hs.1.name
    | stop name => cases he
  rw [← List.append_nil e.name] at hname
  exact ⟨hn.1, hn.2, hname.closer_notMem (fun _ h => h) hn.2⟩

theorem Tame.account (issued : guard.IsIssued)
    (hw : Written guard (Span.pattern.pieces source) hidden) (hp : parse hidden = .ok doc)
    (h : doc.Tame guard hidden) :
    (Span.spans source).Perm
        ((doc.kept ++ doc.lost ++ Token.passedAll hidden).flatMap guard.spansOf) ∧
      (Span.spans (guard.reveal (Render.markup hidden).1)).Perm
        (doc.kept.flatMap guard.spansOf) := by
  obtain ⟨tokens, ht, rfl⟩ := parse_eq_ok_iff.1 hp
  have hlabels := (labels_ofForest (Forest.ofTokens tokens)).trans (Forest.labels_ofTokens tokens)
  have hwords := isWord_of_isPlaceholder issued
  have hnames := h.names
  rw [hlabels] at hnames
  obtain ⟨parts, hlaid, hparts⟩ := laid_all hwords hw.sound ht (hasPlainName_of_names hnames)
  have hall : parts.Perm ((ofForest (Forest.ofTokens tokens)).kept ++
      (ofForest (Forest.ofTokens tokens)).lost ++ Token.passedAll hidden) := by
    refine hparts.trans (List.Perm.append_right _ ?_)
    rw [← hlabels]
    exact (perm_parts _).symm
  have hreveal : guard.reveal hidden = source := by rw [hw.reveal, Span.join_pieces]
  have hpieces : Span.pattern.pieces (Span.join (Span.pattern.pieces source)) =
      Span.pattern.pieces source := by rw [Span.join_pieces]
  obtain ⟨hsettled, hspans⟩ := hlaid.settled issued hw hpieces <| by
    refine h.uncut.imp (fun hu part hm => hu part (hall.mem_iff.1 hm)) fun hu span hm => hu span ?_
    rw [spansOf, hreveal]
    exact List.mem_filterMap.2 ⟨_, hm, rfl⟩
  constructor
  · rw [Span.spans, Pattern.items, hspans]
    exact hall.flatMap_right _
  · have hmarkup : (Render.markup hidden).1 = (Forest.ofTokens tokens).tabled.render := by
      rw [Render.markup, withTables_eq, hp]
      exact congrArg (fun f : Forest => f.tabled.render) (toForest_ofForest _)
    have hwrites : ∀ node ∈ (Forest.ofTokens tokens).labels, guard.Writes (fun kind =>
        ∀ part ∈ (ofForest (Forest.ofTokens tokens)).kept, Span.IsClosed kind (guard.reveal part))
          node := by
      intro node hm
      have hnode : node ∈ (ofForest (Forest.ofTokens tokens)).labels := by rwa [labels_ofForest]
      have hkept : ∀ part ∈ node.kept, part ∈ (ofForest (Forest.ofTokens tokens)).kept :=
        fun part hpart => List.mem_flatMap.2 ⟨node, hnode, hpart⟩
      have hsettledKept : ∀ part ∈ node.kept, guard.Settled part := fun part hpart =>
        hsettled part (hall.mem_iff.2
          (List.mem_append_left _ (List.mem_append_left _ (hkept part hpart))))
      refine ⟨fun part hpart => ?_, fun value hvalue => ?_, fun e he => ?_⟩
      · exact (hsettledKept part hpart).shows fun kind hk => hk part (hkept part hpart)
      · have hpart := NodeData.mem_kept_of_mem_values hvalue
        exact (hsettledKept value hpart).shows_escape issued
          (h.quotes value (List.mem_flatMap.2 ⟨node, hnode, hvalue⟩))
          fun kind hk => hk value (hkept value hpart)
      · have hlabel : .element e ∈ tokens.flatMap Token.labels := by rwa [← he, ← hlabels]
        refine isPlain_of_names issued hw ht hlabel (hnames e.name ?_)
        exact List.mem_flatMap.2 ⟨_, hlabel, List.mem_cons_self⟩
    have hkept : (ofForest (Forest.ofTokens tokens)).kept =
        (Forest.ofTokens tokens).labels.flatMap NodeData.kept := by rw [kept, labels_ofForest]
    have hclosed := h.closed
    rw [hmarkup] at hclosed ⊢
    rw [hkept]
    exact (shows_tabled hwrites).spans_reveal hclosed

/-- All spans are there exactly if none stands in a part that is not written again. -/
theorem Tame.perm_iff (issued : guard.IsIssued)
    (hw : Written guard (Span.pattern.pieces source) hidden) (hp : parse hidden = .ok doc)
    (h : doc.Tame guard hidden) :
    (Span.spans (guard.reveal (Render.markup hidden).1)).Perm (Span.spans source) ↔
      ∀ part ∈ doc.lost ++ Token.passedAll hidden, guard.spansOf part = [] := by
  obtain ⟨hsource, hresult⟩ := h.account issued hw hp
  rw [List.append_assoc, List.flatMap_append] at hsource
  rw [← List.flatMap_eq_nil_iff]
  constructor
  · intro hperm
    have hlength := (hresult.symm.trans (hperm.trans hsource)).length_eq
    rw [List.length_append] at hlength
    exact List.length_eq_zero_iff.1 (by omega)
  · intro hnil
    rw [hnil, List.append_nil] at hsource
    exact hresult.trans hsource.symm

end
end Document

namespace Render

/-- The markup stage for a text without private characters. Markup that cannot be read is left as it
is. Otherwise every span of the text stands in one part of its markup, and the result has the spans
of the parts that are written again, each of them as often and no others; so it has all spans of the
text exactly if none stands in an end tag or in an attribute that a custom element does not hand
on. -/
theorem spans_markup {nonce source : Text} (issued : (Guard.fresh nonce).IsIssued)
    (ho : opener ∉ source) (hc : closer ∉ source) :
    let guard := ((Guard.fresh nonce).hide source).1
    let hidden := ((Guard.fresh nonce).hide source).2
    let result := guard.reveal (markup hidden).1
    (∀ cause, Document.parse hidden = .error cause → result = source) ∧
      ∀ doc, Document.parse hidden = .ok doc → doc.Tame guard hidden →
        (Span.spans source).Perm
            ((doc.kept ++ doc.lost ++ Token.passedAll hidden).flatMap guard.spansOf) ∧
          (Span.spans result).Perm (doc.kept.flatMap guard.spansOf) ∧
            ((Span.spans result).Perm (Span.spans source) ↔
              ∀ part ∈ doc.lost ++ Token.passedAll hidden, guard.spansOf part = []) := by
  intro guard hidden result
  have hw : Written guard (Span.pattern.pieces source) hidden := written_hide ho hc
  have hissued : guard.IsIssued := by
    have hnonce : guard.nonce = nonce := by
      simp only [guard, hide_eq, nonce_remember]
      rfl
    rw [IsIssued, hnonce]
    exact issued
  refine ⟨fun cause hp => ?_, fun doc hp h => ?_⟩
  · have hmarkup : (markup hidden).1 = hidden := by
      rw [markup, Document.withTables_eq, hp]
      rfl
    change guard.reveal (markup hidden).1 = source
    rw [hmarkup, hw.reveal, Span.join_pieces]
  · obtain ⟨hsource, hresult⟩ := h.account hissued hw hp
    exact ⟨hsource, hresult, h.perm_iff hissued hw hp⟩

/-- A row with spans in the attribute that it hands on and in another one, with a tag of the layout, and
with a span in the end tag of what it contains. -/
theorem spans_markup_row :
    let source := ("<row class=\"\x7b\x7bc\x7d\x7d\" \x7b\x7bi\x7d\x7d>\x7b% block b %\x7d" ++
      "<p a=\x7b# n #\x7d>\x7b% if c %\x7d</p \x7b\x7be\x7d\x7d></row>").toList
    let guard := ((Guard.fresh ['n']).hide source).1
    let hidden := ((Guard.fresh ['n']).hide source).2
    let row : Element := ⟨"row".toList,
      [⟨"class".toList, some (guard.placeholder 0)⟩, ⟨guard.placeholder 1, none⟩], false⟩
    let cell : Element := ⟨['p'], [⟨['a'], some (guard.placeholder 2)⟩], false⟩
    let doc := Document.ofForest (.element row (.leaf (.text "\x7b% block b %\x7d".toList)
      (.element cell (.leaf (.text (guard.placeholder 3)) .nil) .nil)) .nil)
    Document.parse hidden = .ok doc ∧ doc.Tame guard hidden ∧
      (Span.spans (guard.reveal (markup hidden).1)).Perm (doc.kept.flatMap guard.spansOf) ∧
        ¬ (Span.spans (guard.reveal (markup hidden).1)).Perm (Span.spans source) := by
  intro source guard hidden row cell doc
  have hp : Document.parse hidden = .ok doc := by decide +kernel
  have ht : doc.Tame guard hidden := by
    refine ⟨by decide +kernel, .inl (by decide +kernel), fun kind => .inl ?_, by decide +kernel⟩
    cases kind <;> decide +kernel
  have hs := spans_markup (by decide +kernel : (Guard.fresh ['n']).IsIssued)
    (by decide +kernel : opener ∉ source) (by decide +kernel)
  obtain ⟨-, hresult, hall⟩ := hs.2 doc hp ht
  refine ⟨hp, ht, hresult, fun hperm => ?_⟩
  have hnone := hall.1 hperm
  revert hnone
  decide +kernel

/-- Spans are lost in an end tag and in an attribute that is not handed on, written twice in the name
of an element, formed where a stray end tag goes, and changed where the markup cuts or quotes a tag of
the layout. -/
theorem spans_markup_changed :
    (Guard.fresh ['n']).IsIssued ∧
      ∀ source ∈ ["</p \x7b\x7bx\x7d\x7d>".toList, "<row \x7b\x7bx\x7d\x7d>a</row>".toList,
          "<p\x7b\x7bx\x7d\x7d>".toList, "\x7b</p>\x7bx\x7d\x7d".toList,
          "<p \x7b%  block a %\x7d>".toList, "<p a='\x7b% extends \"x\" %\x7d'>".toList],
        opener ∉ source ∧ closer ∉ source ∧
          ¬ (Span.spans (((Guard.fresh ['n']).hide source).1.reveal
            (markup ((Guard.fresh ['n']).hide source).2).1)).Perm (Span.spans source) := by
  constructor <;> decide +kernel

end Render
end MailTemplate
