import MailTemplate.Proofs.Markup.OpenElements
import MailTemplate.Proofs.Text.Case
import MailTemplate.Proofs.Text.Cut

/-! The shape of what is read. Tokens and forests that come out of a text are well formed: plain text
begins no markup, comments and declarations hold their own end only at the end, names are made of
the characters of names, and only elements that wait for an end tag have content of their own. -/

namespace MailTemplate

theorem ne_of_isAlpha {c d : Char} (h : c.isAlpha = true) (hd : d.isAlpha = false) : c ≠ d := by
  rintro rfl
  rw [h] at hd
  cases hd

namespace Lead

/-- Markup begins with a brace and a letter, a mark or a question mark next to it, or with a slash
and a letter next to the brace. -/
theorem ofText_ne_text_iff {source : Text} :
    ofText source ≠ .text ↔
      (∃ c rest, source = '<' :: c :: rest ∧ (c = '!' ∨ c = '?' ∨ c.isAlpha = true)) ∨
        ∃ c rest, source = '<' :: '/' :: c :: rest ∧ c.isAlpha = true := by
  constructor
  · intro h
    unfold ofText at h
    split at h
    · exact .inl ⟨_, _, rfl, .inl rfl⟩
    · exact .inl ⟨_, _, rfl, .inl rfl⟩
    · exact .inl ⟨_, _, rfl, .inr (.inl rfl)⟩
    · next c rest =>
      by_cases hc : c.isAlpha = true
      · exact .inr ⟨_, _, rfl, hc⟩
      · simp [hc] at h
    · next c rest _ _ _ _ =>
      by_cases hc : c.isAlpha = true
      · exact .inl ⟨_, _, rfl, .inr (.inr hc)⟩
      · simp [hc] at h
    · exact absurd rfl h
  · rintro (⟨c, rest, rfl, rfl | rfl | hc⟩ | ⟨c, rest, rfl, hc⟩)
    · unfold ofText
      split <;> grind
    · simp [ofText]
    · unfold ofText
      split <;> simp_all
    · simp [ofText, hc]

theorem ofText_append_ne_text {source : Text} (h : ofText source ≠ .text) (rest : Text) :
    ofText (source ++ rest) ≠ .text := by
  rw [ofText_ne_text_iff] at h ⊢
  rcases h with ⟨c, r, rfl, hc⟩ | ⟨c, r, rfl, hc⟩
  · exact .inl ⟨c, r ++ rest, rfl, hc⟩
  · exact .inr ⟨c, r ++ rest, rfl, hc⟩

theorem ofText_append_eq_text {source rest : Text} (hn : source ≠ [])
    (h : ofText source = .text) (hr : ∀ c ∈ rest.head?, c = '<') :
    ofText (source ++ rest) = .text := by
  by_contra hne
  rw [← ne_eq, ofText_ne_text_iff] at hne
  have hs : ¬ ofText source ≠ .text := fun hs => hs h
  rw [ofText_ne_text_iff] at hs
  have hb : ∀ {d : Char} {r : Text}, rest = d :: r → d = '<' := fun he => hr _ (by rw [he]; rfl)
  rcases hne with ⟨c, r, he, hc⟩ | ⟨c, r, he, hc⟩
  · match source, hn with
    | [s], _ =>
      rw [hb (List.cons.inj he).2] at hc
      revert hc
      decide
    | s :: t :: source, _ =>
      obtain ⟨hs', he⟩ := List.cons.inj he
      obtain ⟨ht, -⟩ := List.cons.inj he
      exact hs (.inl ⟨c, source, by rw [hs', ht], hc⟩)
  · match source, hn with
    | [s], _ => exact absurd (hb (List.cons.inj he).2) (by decide)
    | [s, t], _ =>
      rw [hb (List.cons.inj (List.cons.inj he).2).2] at hc
      revert hc
      decide
    | s :: t :: u :: source, _ =>
      obtain ⟨hs', he⟩ := List.cons.inj he
      obtain ⟨ht, he⟩ := List.cons.inj he
      obtain ⟨hu, -⟩ := List.cons.inj he
      exact hs (.inr ⟨c, source, by rw [hs', ht, hu], hc⟩)

theorem ofText_start {c : Char} (h : c.isAlpha = true) (rest : Text) :
    ofText ('<' :: c :: rest) = .start := by
  have h1 := ne_of_isAlpha h (d := '!') (by decide)
  have h2 := ne_of_isAlpha h (d := '?') (by decide)
  have h3 := ne_of_isAlpha h (d := '/') (by decide)
  unfold ofText
  split <;> simp_all

theorem ofText_stop {c : Char} (h : c.isAlpha = true) (rest : Text) :
    ofText ('<' :: '/' :: c :: rest) = .stop := by simp [ofText, h]

theorem ofText_eq_start_iff {source : Text} :
    ofText source = .start ↔ ∃ c rest, source = '<' :: c :: rest ∧ c.isAlpha = true := by
  constructor
  · intro h
    unfold ofText at h
    split at h <;> try contradiction
    · split at h <;> contradiction
    · next c rest _ _ _ _ =>
      by_cases hc : c.isAlpha = true
      · exact ⟨c, rest, rfl, hc⟩
      · simp [hc] at h
  · rintro ⟨c, rest, rfl, hc⟩
    exact ofText_start hc rest

theorem ofText_eq_stop_iff {source : Text} :
    ofText source = .stop ↔ ∃ c rest, source = '<' :: '/' :: c :: rest ∧ c.isAlpha = true := by
  constructor
  · intro h
    unfold ofText at h
    split at h <;> try contradiction
    · next c rest =>
      by_cases hc : c.isAlpha = true
      · exact ⟨c, rest, rfl, hc⟩
      · simp [hc] at h
    · split at h <;> contradiction
  · rintro ⟨c, rest, rfl, hc⟩
    exact ofText_stop hc rest

theorem ofText_eq_comment_iff {source : Text} :
    ofText source = .comment ↔ ∃ rest, source = "<!--".toList ++ rest := by
  constructor
  · intro h
    unfold ofText at h
    split at h <;> try contradiction
    · next rest => exact ⟨rest, rfl⟩
    · split at h <;> contradiction
    · split at h <;> contradiction
  · rintro ⟨rest, rfl⟩
    rfl

theorem ofText_eq_declaration_iff {source : Text} :
    ofText source = .declaration ↔
      (∃ rest, source = '<' :: '?' :: rest) ∨
        ∃ rest, source = '<' :: '!' :: rest ∧ ¬ ['-', '-'] <+: rest := by
  constructor
  · intro h
    unfold ofText at h
    split at h <;> try contradiction
    · next rest hr =>
      refine .inr ⟨rest, rfl, fun ⟨t, ht⟩ => ?_⟩
      exact hr t (by rw [← ht]; rfl)
    · exact .inl ⟨_, rfl⟩
    · split at h <;> contradiction
    · split at h <;> contradiction
  · rintro (⟨rest, rfl⟩ | ⟨rest, rfl, hr⟩)
    · rfl
    · unfold ofText
      split <;> grind

end Lead

namespace Text

def IsPlain (text : Text) : Prop := ∀ part, part <:+ text → Lead.ofText part = .text

instance (text : Text) : Decidable text.IsPlain :=
  decidable_of_iff (∀ part ∈ text.tails, Lead.ofText part = .text)
    (forall_congr' fun part => by rw [List.mem_tails])

theorem IsPlain.of_suffix {text part : Text} (h : text.IsPlain) (hp : part <:+ text) :
    part.IsPlain := fun _ hs => h _ (hs.trans hp)

end Text

/-- Text is plain, a comment does not hold its end, and a declaration holds a closing brace only as
its last character. -/
def Leaf.WellFormed : Leaf → Prop
  | .text content => content ≠ [] ∧ Text.IsPlain content
  | .comment body => ¬ "-->".toList <:+: body
  | .declaration source =>
    Lead.ofText source = .declaration ∧ ∃ before, '>' ∉ before ∧ source = before ++ ['>']

/-- A name of an attribute is a stray `=`, or a run of characters of names. -/
def Attribute.WellFormed (attr : Attribute) : Prop :=
  attr.name = ['='] ∨ attr.name ≠ [] ∧ ∀ c ∈ attr.name, Attribute.isNameChar c = true

/-- The name of an element begins with a letter and is in lower case. -/
structure Element.WellFormed (element : Element) : Prop where
  leading : ∃ c rest, element.name = c :: rest ∧ c.isAlpha = true
  chars : ∀ c ∈ element.name, Token.isNameChar c = true
  lower : Text.lower element.name = element.name
  attributes : ∀ attr ∈ element.attributes, attr.WellFormed

namespace Element

def isLeaf (element : Element) : Bool := element.selfClosing || element.isVoid

def closing (element : Element) : Text := '<' :: '/' :: element.name

/-- The text that a complete element can have: none, or raw text without the end tag. -/
def Holds (element : Element) (content : Text) : Prop :=
  if element.isLeaf then content = []
  else element.isRaw = true ∧ ¬ element.closing <:+: Text.lower content

end Element

def Token.WellFormed : Token → Prop
  | .leaf l => l.WellFormed
  | .complete e content => e.WellFormed ∧ e.Holds content
  | .start e => e.WellFormed ∧ e.isLeaf = false ∧ e.isRaw = false
  | .stop _ => True

def Forest.WellFormed : Forest → Prop
  | .nil => True
  | .leaf l next => l.WellFormed ∧ next.WellFormed
  | .element e children next =>
    e.WellFormed ∧
      (if e.isLeaf || e.isRaw then ∃ content, children = .ofContent content ∧ e.Holds content
        else children.WellFormed) ∧
      next.WellFormed

theorem Text.isPlain_plainText (source : Text) : Text.IsPlain (plainText source).1 := by
  induction source with
  | nil =>
    intro part hp
    rw [List.suffix_nil.1 hp]
    rfl
  | cons c source ih =>
    by_cases hl : Lead.ofText (c :: source) = .text
    · simp only [plainText, hl, if_true]
      intro part hp
      rcases List.suffix_cons_iff.1 hp with rfl | hp
      · by_contra hne
        refine Lead.ofText_append_ne_text hne (plainText source).2 ?_
        rw [List.cons_append, plainText_append, hl]
      · exact ih part hp
    · simp only [plainText, hl, if_false]
      intro part hp
      rw [List.suffix_nil.1 hp]
      rfl

namespace Attribute

theorem wellFormed_nameAndRest (source : Text) :
    (nameAndRest source).1 = ['='] ∨
      (nameAndRest source).1 ≠ [] ∧ ∀ c ∈ (nameAndRest source).1, isNameChar c = true := by
  unfold nameAndRest
  split
  · exact .inl rfl
  · next hn =>
    refine .inr ⟨hn, fun c hc => List.mem_takeWhile_imp hc⟩

theorem wellFormed_of_scan? {source rest : Text} {attr : Attribute}
    (h : scan? source = some (attr, rest)) : attr.WellFormed := by
  have hn : attr.name = (nameAndRest source).1 := by
    simp only [scan?] at h
    split at h
    · obtain ⟨⟨v, r⟩, -, he⟩ := Option.map_eq_some_iff.1 h
      cases he
      rfl
    · cases h
      rfl
  unfold WellFormed
  rw [hn]
  exact wellFormed_nameAndRest source

end Attribute

theorem wellFormed_of_attributes? {source rest : Text} {attributes : List Attribute}
    {selfClosing : Bool} (h : attributes? source = some (attributes, selfClosing, rest)) :
    ∀ attr ∈ attributes, attr.WellFormed := by
  fun_induction attributes? source generalizing attributes selfClosing rest with
  | case1 => cases h
  | case2 =>
    cases h
    simp
  | case3 =>
    cases h
    simp
  | case4 _ _ _ _ ih => exact ih h
  | case5 => cases h
  | case6 source c r _ _ _ _ attr r' ha ih =>
    obtain ⟨⟨as, sc, r''⟩, hr, he⟩ := Option.map_eq_some_iff.1 h
    cases he
    intro a hm
    rcases List.mem_cons.1 hm with rfl | hm
    · exact Attribute.wellFormed_of_scan? ha
    · exact ih hr a hm

namespace Token

theorem isNameChar_of_isAlpha {c : Char} (h : c.isAlpha = true) : isNameChar c = true := by
  have hs := Text.isSpace_of_isAlpha h
  have h1 := ne_of_isAlpha h (d := '/') (by decide)
  have h2 := ne_of_isAlpha h (d := '>') (by decide)
  simp [isNameChar, hs, h1, h2]

theorem wellFormed_element {source : Text} {attributes : List Attribute} (selfClosing : Bool)
    (hl : ∃ c rest, source = c :: rest ∧ c.isAlpha = true)
    (ha : ∀ attr ∈ attributes, attr.WellFormed) :
    Element.WellFormed ⟨Text.lower (source.takeWhile isNameChar), attributes, selfClosing⟩ where
  leading := by
    obtain ⟨c, rest, rfl, hc⟩ := hl
    rw [List.takeWhile_cons_of_pos (isNameChar_of_isAlpha hc)]
    exact ⟨_, _, rfl, by rwa [Char.isAlpha_toLower_eq_isAlpha]⟩
  chars := by
    intro c hc
    obtain ⟨d, hd, rfl⟩ := List.mem_map.1 hc
    rw [Text.apply_toLower fun c => isNameChar_of_isAlpha]
    exact List.mem_takeWhile_imp hd
  lower := Text.lower_lower _
  attributes := ha

theorem closing_ne_nil (element : Element) : element.closing ≠ [] := List.cons_ne_nil _ _

theorem not_infix_rawContent (element : Element) (source : Text) :
    ¬ element.closing <:+: Text.lower (rawContent element.name source).1 := by
  unfold rawContent
  split
  · next before rest hc =>
    have hb : Text.lower (source.take before.length) = before := by
      have he := Text.eq_append_of_cut? hc
      calc Text.lower (source.take before.length)
          = (Text.lower source).take before.length := by simp [Text.lower, List.map_take]
        _ = before := by rw [he, List.append_assoc, List.take_left]
    rw [hb]
    exact Text.not_infix_of_cut? (closing_ne_nil element) hc
  · next hc => exact (Text.cut?_eq_none_iff (closing_ne_nil element)).1 hc

theorem wellFormed_ofStart {element : Element} (h : element.WellFormed) (rest : Text) :
    (ofStart element rest).1.WellFormed := by
  unfold ofStart
  by_cases hl : element.isLeaf
  · have hl' : (element.selfClosing || element.isVoid) = true := hl
    simp only [hl', if_true]
    exact ⟨h, by simp [Element.Holds, hl]⟩
  · have hl' : ¬ (element.selfClosing || element.isVoid) = true := hl
    by_cases hr : element.isRaw
    · simp only [hl', hr, if_true]
      refine ⟨h, ?_⟩
      simp only [Element.Holds, hl]
      exact ⟨hr, not_infix_rawContent element rest⟩
    · simp only [hl', hr]
      exact ⟨h, Bool.eq_false_iff.2 hl, Bool.eq_false_iff.2 hr⟩

theorem exists_eq_of_append {d : Char} {source before rest : Text} (hd : d ≠ '>')
    (h : '<' :: d :: source = before ++ ['>'] ++ rest) :
    ∃ inner, before = '<' :: d :: inner ∧ source = inner ++ ['>'] ++ rest := by
  match before with
  | [] => exact absurd (List.cons.inj h).1 (by decide)
  | [_] => exact absurd (List.cons.inj (List.cons.inj h).2).1 hd
  | a :: b :: inner =>
    obtain ⟨ha, h⟩ := List.cons.inj h
    obtain ⟨hb, h⟩ := List.cons.inj h
    exact ⟨inner, by rw [ha, hb], h⟩

theorem ofText_declaration {source before rest : Text} (hl : Lead.ofText source = .declaration)
    (h : source = before ++ ['>'] ++ rest) : Lead.ofText (before ++ ['>']) = .declaration := by
  rw [Lead.ofText_eq_declaration_iff] at hl ⊢
  rcases hl with ⟨r, hr⟩ | ⟨r, hr, hn⟩
  · obtain ⟨inner, rfl, -⟩ := exists_eq_of_append (by decide) (hr.symm.trans h)
    exact .inl ⟨inner ++ ['>'], rfl⟩
  · obtain ⟨inner, rfl, he⟩ := exists_eq_of_append (by decide) (hr.symm.trans h)
    refine .inr ⟨inner ++ ['>'], rfl, fun hp => hn (hp.trans ?_)⟩
    rw [he]
    exact List.prefix_append _ _

theorem wellFormed_of_scan {c : Char} {source rest : Text} {token : Token}
    (h : scan (c :: source) = .ok (token, rest)) : token.WellFormed := by
  unfold scan at h
  split at h
  · split at h
    · cases h
    · next hc =>
      cases h
      exact Text.not_infix_of_cut? (by decide) hc
  · next hl =>
    split at h
    · cases h
    · next before rest hc =>
      cases h
      have hb : '>' ∉ before := by
        have hi := Text.not_infix_of_cut? (List.cons_ne_nil _ _) hc
        rwa [List.singleton_infix_iff] at hi
      exact ⟨ofText_declaration hl (Text.eq_append_of_cut? hc), before, hb, rfl⟩
  · unfold stopTag at h
    split at h <;> cases h
    trivial
  · next hl =>
    unfold startTag at h
    split at h
    · cases h
    · next attributes selfClosing r ha =>
      obtain ⟨d, t, he, hd⟩ := Lead.ofText_eq_start_iff.1 hl
      have hw := wellFormed_element selfClosing ⟨d, t, (List.cons.inj he).2, hd⟩
        (wellFormed_of_attributes? ha)
      have hs := wellFormed_ofStart hw r
      have ho : ofStart _ r = (token, rest) := Except.ok.inj h
      rw [← show (ofStart _ r).1 = token from congrArg Prod.fst ho]
      exact hs
  · next hl =>
    cases h
    exact ⟨by simp [plainText, hl], Text.isPlain_plainText _⟩

theorem wellFormed_of_all {source : Text} {tokens : List Token} (h : all source = .ok tokens) :
    ∀ token ∈ tokens, token.WellFormed := by
  fun_induction all source generalizing tokens with
  | case1 =>
    cases h
    simp
  | case2 => cases h
  | case3 c source token rest hs ih =>
    cases ha : all rest with
    | error fault =>
      rw [ha] at h
      cases h
    | ok later =>
      rw [ha] at h
      cases h
      intro t ht
      rcases List.mem_cons.1 ht with rfl | ht
      · exact wellFormed_of_scan hs
      · exact ih ha t ht

end Token

namespace Forest

theorem wellFormed_ofContent_iff {element : Element} {content : Text} (h : element.WellFormed)
    (hc : element.Holds content) (next : Forest) :
    (Forest.element element (ofContent content) next).WellFormed ↔ next.WellFormed := by
  have hlr : (element.isLeaf || element.isRaw) = true := by
    by_cases hl : element.isLeaf
    · simp [hl]
    · simp only [Element.Holds, hl] at hc
      simp [hc.1]
  simp only [WellFormed, hlr, if_true, h, true_and]
  exact ⟨fun hn => hn.2, fun hn => ⟨⟨content, rfl, hc⟩, hn⟩⟩

theorem wellFormed_grow {tokens : List Token} (h : ∀ token ∈ tokens, token.WellFormed)
    (opened : List Text) :
    (grow tokens opened).1.WellFormed ∧ ∀ forest ∈ (grow tokens opened).2, forest.WellFormed := by
  induction tokens generalizing opened with
  | nil => simp [grow, WellFormed]
  | cons token tokens ih =>
    have ht := h token List.mem_cons_self
    have ih := ih fun t hm => h t (List.mem_cons_of_mem _ hm)
    cases token with
    | leaf l => exact ⟨⟨ht, (ih opened).1⟩, (ih opened).2⟩
    | complete e content =>
      exact ⟨(wellFormed_ofContent_iff ht.1 ht.2 _).2 (ih opened).1, (ih opened).2⟩
    | start e =>
      obtain ⟨hc, ho⟩ := ih (e.name :: opened)
      have hlr : ¬ (e.isLeaf || e.isRaw) = true := by simp [ht.2]
      have hn : ((grow tokens (e.name :: opened)).2.headD nil).WellFormed := by
        cases hg : (grow tokens (e.name :: opened)).2 with
        | nil => trivial
        | cons f fs => exact ho f (by simp [hg])
      refine ⟨⟨ht.1, ?_, hn⟩, fun f hf => ho f (List.mem_of_mem_tail hf)⟩
      simp only [hlr]
      exact hc
    | stop name =>
      simp only [grow]
      split
      · exact ih opened
      · next i _ =>
        obtain ⟨hn, ho⟩ := ih (opened.drop (i + 1))
        refine ⟨trivial, fun f hf => ?_⟩
        rcases List.mem_append.1 hf with hf | hf
        · rw [(List.mem_replicate.1 hf).2]
          trivial
        · rcases List.mem_cons.1 hf with rfl | hf
          · exact hn
          · exact ho f hf

theorem wellFormed_ofTokens {tokens : List Token} (h : ∀ token ∈ tokens, token.WellFormed) :
    (ofTokens tokens).WellFormed := (wellFormed_grow h []).1

end Forest
end MailTemplate
