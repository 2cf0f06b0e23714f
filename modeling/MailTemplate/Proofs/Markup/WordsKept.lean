import MailTemplate.Proofs.Guard.Words
import MailTemplate.Proofs.Markup.Shape

/-! Reading keeps words whole. No reader of markup stops at a character of a word, so whatever it makes
of a text that consists of words and other characters consists of words and other characters; only
the names of elements have their words in lower case. -/

namespace MailTemplate
open Guard

def Attribute.Sound (words : Text → Prop) (attr : Attribute) : Prop :=
  Guard.Sound words attr.name ∧ ∀ value, attr.value = some value → Guard.Sound words value

/-- Every part of the element is made of words and other characters, those of the name of words of
their own. -/
structure Element.Sound (words names : Text → Prop) (element : Element) : Prop where
  name : Guard.Sound names element.name
  attributes : ∀ attr ∈ element.attributes, attr.Sound words

def Token.Sound (words names : Text → Prop) : Token → Prop
  | .leaf l => Guard.Sound words l.source
  | .complete e content => e.Sound words names ∧ Guard.Sound words content
  | .start e => e.Sound words names
  | .stop _ => True

theorem stops_of_mem {c : Char} (h : c ∈ ['<', '>', '/', '=', '"', '\'']) :
    Stops c ∧ Starts c := by
  simp only [List.mem_cons, List.not_mem_nil, or_false] at h
  rcases h with rfl | rfl | rfl | rfl | rfl | rfl <;> exact ⟨⟨by decide, by decide⟩, by decide, by decide⟩

namespace Attribute

theorem stops_of_not_isNameChar {c : Char} (h : isNameChar c = false) : Stops c := by
  by_cases hs : Text.isSpace c = true
  · exact (stops_of_isSpace hs).1
  · refine (stops_of_mem ?_).1
    simp only [isNameChar, hs, Bool.not_false, Bool.true_and, Bool.and_eq_false_iff,
      bne_eq_false_iff_eq] at h
    rcases h with (rfl | rfl) | rfl <;> decide

theorem stops_of_not_isBareChar {c : Char} (h : isBareChar c = false) : Stops c := by
  by_cases hs : Text.isSpace c = true
  · exact (stops_of_isSpace hs).1
  · refine (stops_of_mem ?_).1
    simp only [isBareChar, hs, Bool.not_false, Bool.true_and, bne_eq_false_iff_eq] at h
    rw [h]
    decide

end Attribute

theorem Token.stops_of_not_isNameChar {c : Char} (h : isNameChar c = false) : Stops c := by
  by_cases hs : Text.isSpace c = true
  · exact (stops_of_isSpace hs).1
  · refine (stops_of_mem ?_).1
    simp only [isNameChar, hs, Bool.not_false, Bool.true_and, Bool.and_eq_false_iff,
      bne_eq_false_iff_eq] at h
    rcases h with rfl | rfl <;> decide

section
variable {words names : Text → Prop} (hw : ∀ word, words word → IsWord word) {source rest : Text}
include hw

theorem sound_dropSpace (h : Guard.Sound words source) : Guard.Sound words (Text.dropSpace source) :=
  (h.dropWhile hw (.inr fun _ hc => (stops_of_isSpace hc).2)).2

theorem sound_nameAndRest (h : Guard.Sound words source) :
    Guard.Sound words (Attribute.nameAndRest source).1 ∧
      Guard.Sound words (Attribute.nameAndRest source).2 := by
  have hd := h.dropWhile hw (.inl fun _ hc => Attribute.stops_of_not_isNameChar hc)
  unfold Attribute.nameAndRest
  split
  · next ht =>
    have hstray : Guard.Sound words ['='] := sound_of_notMem (by decide) (by decide)
    refine ⟨hstray, ?_⟩
    cases source with
    | nil => exact h
    | cons c source =>
      refine h.tail hw ?_
      rintro rfl
      rw [List.takeWhile_cons_of_pos (by decide)] at ht
      cases ht
  · exact hd

theorem sound_value? {value : Text} (h : Guard.Sound words source)
    (hv : Attribute.value? source = some (value, rest)) :
    Guard.Sound words value ∧ Guard.Sound words rest := by
  have hquote : ∀ {quote : Char} {source : Text}, quote ∈ ['<', '>', '/', '=', '"', '\''] →
      Guard.Sound words source → Text.cut? [quote] source = some (value, rest) →
        Guard.Sound words value ∧ Guard.Sound words rest := by
    intro quote source hq hs hc
    obtain ⟨hstops, hstarts⟩ := stops_of_mem hq
    refine hs.cut? hw hc (fun c hm => ?_) (fun c hm => ?_) (List.cons_ne_nil _ _)
    · rwa [← Option.some.inj hm]
    · rwa [← Option.some.inj hm]
  unfold Attribute.value? at hv
  split at hv
  · exact hquote (by decide) (h.tail hw (by decide)) hv
  · exact hquote (by decide) (h.tail hw (by decide)) hv
  · cases hv
    exact h.dropWhile hw (.inl fun _ hc => Attribute.stops_of_not_isBareChar hc)

theorem sound_scan? {attr : Attribute} (h : Guard.Sound words source)
    (ha : Attribute.scan? source = some (attr, rest)) :
    attr.Sound words ∧ Guard.Sound words rest := by
  obtain ⟨hname, hrest⟩ := sound_nameAndRest hw h
  have hd := sound_dropSpace hw hrest
  simp only [Attribute.scan?] at ha
  split at ha
  · next after hs =>
    rw [hs] at hd
    obtain ⟨⟨value, last⟩, hv, he⟩ := Option.map_eq_some_iff.1 ha
    cases he
    obtain ⟨hvalue, hlast⟩ := sound_value? hw (sound_dropSpace hw (hd.tail hw (by decide))) hv
    refine ⟨⟨hname, fun v hv => ?_⟩, hlast⟩
    rwa [← Option.some.inj hv]
  · cases ha
    exact ⟨⟨hname, fun v hv => by cases hv⟩, hd⟩

theorem sound_attributes? {attributes : List Attribute} {selfClosing : Bool}
    (h : Guard.Sound words source)
    (ha : attributes? source = some (attributes, selfClosing, rest)) :
    (∀ attr ∈ attributes, attr.Sound words) ∧ Guard.Sound words rest := by
  have hd := sound_dropSpace hw h
  fun_induction attributes? source generalizing attributes selfClosing rest with
  | case1 => cases ha
  | case2 source r hs =>
    cases ha
    rw [hs] at hd
    exact ⟨by simp, hd.tail hw (by decide)⟩
  | case3 source r hs =>
    cases ha
    rw [hs] at hd
    exact ⟨by simp, (hd.tail hw (by decide)).tail hw (by decide)⟩
  | case4 source r _ hs ih =>
    rw [hs] at hd
    have hr := hd.tail hw (by decide)
    exact ih hr ha (sound_dropSpace hw hr)
  | case5 => cases ha
  | case6 source c r _ _ _ hs attr r' hscan ih =>
    obtain ⟨⟨as, sc, r''⟩, hr, he⟩ := Option.map_eq_some_iff.1 ha
    cases he
    rw [hs] at hd
    obtain ⟨hattr, hr'⟩ := sound_scan? hw hd hscan
    obtain ⟨has, hr''⟩ := ih hr' hr (sound_dropSpace hw hr')
    refine ⟨fun a hm => ?_, hr''⟩
    rcases List.mem_cons.1 hm with rfl | hm
    · exact hattr
    · exact has a hm

omit hw in
theorem head_plainText (source : Text) : ∀ c ∈ (plainText source).2.head?, c = '<' := by
  induction source with
  | nil =>
    intro c hc
    cases hc
  | cons d source ih =>
    intro c hc
    by_cases hl : Lead.ofText (d :: source) = .text
    · simp only [plainText, hl, if_true] at hc
      exact ih c hc
    · simp only [plainText, hl, if_false] at hc
      rw [← Option.some.inj hc]
      rcases Lead.ofText_ne_text_iff.1 hl with ⟨_, _, he, -⟩ | ⟨_, _, he, -⟩ <;>
        exact (List.cons.inj he).1

theorem sound_plainText (h : Guard.Sound words source) :
    Guard.Sound words (plainText source).1 ∧ Guard.Sound words (plainText source).2 := by
  rw [← plainText_append source] at h
  refine h.split hw (.inl fun c hc => ?_)
  rw [head_plainText source c hc]
  exact (stops_of_mem (by decide)).1

/-- A text is sound in front of a closing brace, and so is what follows the brace. -/
theorem sound_cut?_brace {before : Text} (h : Guard.Sound words source)
    (hc : Text.cut? ['>'] source = some (before, rest)) :
    Guard.Sound words (before ++ ['>']) ∧ Guard.Sound words rest := by
  rw [Text.eq_append_of_cut? hc] at h
  refine h.split hw (.inr fun c hm => ?_)
  rw [List.getLast?_concat] at hm
  rw [← Option.some.inj hm]
  exact (stops_of_mem (by decide)).2

theorem sound_afterBrace (h : Guard.Sound words source) :
    Guard.Sound words (Token.afterBrace source) := by
  unfold Token.afterBrace
  cases hc : Text.cut? ['>'] source with
  | none => exact .nil
  | some p => exact (sound_cut?_brace hw h hc).2

theorem sound_rawContent (name : Text) (h : Guard.Sound words source) :
    Guard.Sound words (Token.rawContent name source).1 ∧
      Guard.Sound words (Token.rawContent name source).2 := by
  unfold Token.rawContent
  split
  · next before after hc =>
    have hs : source.take before.length ++ source.drop before.length = source :=
      List.take_append_drop _ _
    have hd : Text.lower (source.drop before.length) = '<' :: '/' :: name ++ after := by
      have he := Text.eq_append_of_cut? hc
      calc Text.lower (source.drop before.length)
          = (Text.lower source).drop before.length := by simp [Text.lower, List.map_drop]
        _ = '<' :: '/' :: name ++ after := by rw [he, List.append_assoc, List.drop_left]
    rw [← hs] at h
    refine h.split hw (.inl fun c hm => ?_)
    cases hdrop : source.drop before.length with
    | nil =>
      rw [hdrop] at hm
      cases hm
    | cons d rest =>
      rw [hdrop] at hm hd
      have hlt : d.toLower = '<' := (List.cons.inj hd).1
      rw [← Option.some.inj hm, (Text.toLower_eq_iff (by decide)).1 hlt]
      exact (stops_of_mem (by decide)).1
  · exact ⟨h, .nil⟩

theorem sound_ofStart {element : Element} (he : element.Sound words names)
    (h : Guard.Sound words rest) :
    (Token.ofStart element rest).1.Sound words names ∧
      Guard.Sound words (Token.ofStart element rest).2 := by
  unfold Token.ofStart
  split
  · exact ⟨⟨he, .nil⟩, h⟩
  · split
    · obtain ⟨hc, hr⟩ := sound_rawContent hw element.name h
      exact ⟨⟨he, hc⟩, sound_afterBrace hw hr⟩
    · exact ⟨he, h⟩

theorem sound_stopTag {token : Token} (h : Guard.Sound words source)
    (hs : Token.stopTag source = .ok (token, rest)) : Guard.Sound words rest := by
  unfold Token.stopTag at hs
  have hd := (h.dropWhile hw (p := Token.isStopChar) (.inl fun c hc => ?_)).2
  · split at hs
    · cases hs
    · next before after hc =>
      cases hs
      exact (sound_cut?_brace hw hd hc).2
  · by_cases hsp : Text.isSpace c = true
    · exact (stops_of_isSpace hsp).1
    · simp only [Token.isStopChar, hsp, Bool.not_false, Bool.true_and, bne_eq_false_iff_eq] at hc
      rw [hc]
      exact (stops_of_mem (by decide)).1

theorem sound_startTag (hn : ∀ word, words word → names (Text.lower word)) {token : Token}
    (h : Guard.Sound words source) (hs : Token.startTag source = .ok (token, rest)) :
    token.Sound words names ∧ Guard.Sound words rest := by
  have hd := h.dropWhile hw (p := Token.isNameChar) (.inl fun c hc =>
    Token.stops_of_not_isNameChar hc)
  unfold Token.startTag at hs
  split at hs
  · cases hs
  · next attributes selfClosing after ha =>
    obtain ⟨hattributes, hafter⟩ := sound_attributes? hw hd.2 ha
    have helement : Element.Sound words names
        ⟨Text.lower (source.takeWhile Token.isNameChar), attributes, selfClosing⟩ :=
      ⟨hd.1.lower hn, hattributes⟩
    have hstart := sound_ofStart hw helement hafter
    have ho : Token.ofStart _ after = (token, rest) := Except.ok.inj hs
    rw [ho] at hstart
    exact hstart

/-- A token is made of words and other characters, and so is the text after it. -/
theorem sound_scan (hn : ∀ word, words word → names (Text.lower word))
    {token : Token} (h : Guard.Sound words source)
    (hscan : Token.scan source = .ok (token, rest)) :
    token.Sound words names ∧ Guard.Sound words rest := by
  unfold Token.scan at hscan
  split at hscan
  · next hl =>
    split at hscan
    · cases hscan
    · next body after hc =>
      cases hscan
      obtain ⟨inner, rfl⟩ := Lead.ofText_eq_comment_iff.1 hl
      have hinner : inner = body ++ "-->".toList ++ rest := Text.eq_append_of_cut? hc
      have hsource : "<!--".toList ++ inner = (Leaf.comment body).source ++ rest := by
        simp [hinner, Leaf.source]
      rw [hsource] at h
      refine h.split hw (.inr fun c hm => ?_)
      have hlast : (Leaf.comment body).source = "<!--".toList ++ body ++ "--".toList ++ ['>'] := by
        simp [Leaf.source]
      rw [hlast, List.getLast?_concat] at hm
      rw [← Option.some.inj hm]
      exact (stops_of_mem (by decide)).2
  · split at hscan
    · cases hscan
    · next before after hc =>
      cases hscan
      exact sound_cut?_brace hw h hc
  · next hl =>
    obtain ⟨c, after, rfl, -⟩ := Lead.ofText_eq_stop_iff.1 hl
    have hafter := (h.tail hw (by decide)).tail hw (by decide)
    have hname : ∃ name, token = .stop name := by
      have hs := hscan
      unfold Token.stopTag at hs
      split at hs
      · cases hs
      · cases hs
        exact ⟨_, rfl⟩
    obtain ⟨name, rfl⟩ := hname
    exact ⟨trivial, sound_stopTag hw hafter hscan⟩
  · next hl =>
    obtain ⟨c, after, rfl, -⟩ := Lead.ofText_eq_start_iff.1 hl
    exact sound_startTag hw hn (h.tail hw (by decide)) hscan
  · cases hscan
    exact sound_plainText hw h

theorem sound_all (hn : ∀ word, words word → names (Text.lower word)) {tokens : List Token}
    (h : Guard.Sound words source) (ha : Token.all source = .ok tokens) :
    ∀ token ∈ tokens, token.Sound words names := by
  fun_induction Token.all source generalizing tokens with
  | case1 =>
    cases ha
    simp
  | case2 => cases ha
  | case3 c source token rest hscan ih =>
    obtain ⟨htoken, hrest⟩ := sound_scan hw hn h hscan
    cases hr : Token.all rest with
    | error fault =>
      rw [hr] at ha
      cases ha
    | ok later =>
      rw [hr] at ha
      cases ha
      intro t ht
      rcases List.mem_cons.1 ht with rfl | ht
      · exact htoken
      · exact ih hrest hr t ht

end
end MailTemplate
