import MailTemplate.Proofs.Guard.Written
import MailTemplate.Proofs.Text.Misses

/-! Hiding a text once hides all of it. A placeholder holds none of the characters that spans begin and
end with, so the text around the placeholders shows no span that it did not show before: a loose brace
that begins no span in the text begins none in the hidden text, where only less stands behind it. -/

namespace MailTemplate
namespace Guard

/-- A text, and the same text with placeholders of the guard in the place of parts of it. -/
inductive Masked (guard : Guard) : Text → Text → Prop
  | nil : Masked guard [] []
  | char {c : Char} {text hidden : Text} : Masked guard text hidden →
      Masked guard (c :: text) (c :: hidden)
  | part {id : Nat} {part text hidden : Text} : Masked guard text hidden →
      Masked guard (part ++ text) (guard.placeholder id ++ hidden)

section
variable {guard : Guard} {text hidden mark : Text} {pieces : List (Piece Span)} {first : Nat}

theorem Masked.append_left (h : Masked guard text hidden) (front : Text) :
    Masked guard (front ++ text) (front ++ hidden) := by
  induction front with
  | nil => exact h
  | cons c front ih => exact .char ih

theorem masked_number (pieces : List (Piece Span)) (first : Nat) :
    Masked guard (Span.join pieces) (guard.write (number first pieces)) := by
  induction pieces generalizing first with
  | nil => exact .nil
  | cons piece pieces ih =>
    cases piece with
    | char c => exact .char (ih first)
    | item span =>
      by_cases hs : span.isStructural
      · simp only [number, hs, if_true, write_append, write_map_char, Span.join_item]
        exact (ih first).append_left span.text
      · simp only [number, hs, Bool.false_eq_true, if_false, write_item, Span.join_item]
        exact .part (ih (first + 1))

/-- Behind a character that begins no placeholder the text and the hidden text go on together. -/
theorem Masked.of_cons {c : Char} (hc : c ≠ opener) (h : Masked guard text (c :: hidden)) :
    ∃ rest, text = c :: rest ∧ Masked guard rest hidden := by
  generalize hsource : c :: hidden = source at h
  cases h with
  | nil => cases hsource
  | char h =>
    obtain ⟨rfl, rfl⟩ := List.cons.inj hsource
    exact ⟨_, rfl, h⟩
  | part _ => exact absurd (List.cons.inj hsource).1 hc

theorem Masked.isPrefix (h : Masked guard text hidden) (hm : opener ∉ mark)
    (hp : mark <+: hidden) : mark <+: text := by
  induction mark generalizing text hidden with
  | nil => exact List.nil_prefix
  | cons c mark ih =>
    rw [List.mem_cons, not_or] at hm
    obtain ⟨rest, rfl⟩ := hp
    obtain ⟨text, rfl, htail⟩ := h.of_cons (Ne.symm hm.1)
    exact List.cons_prefix_cons.2 ⟨rfl, ih htail hm.2 (List.prefix_append mark rest)⟩

/-- A mark with a first character that no placeholder holds stands in the hidden text only where it
stands in the text. -/
theorem Masked.isInfix {c : Char} (issued : guard.IsIssued) (h : Masked guard text hidden)
    (hs : Stops c) (ho : Starts c) (hm : opener ∉ c :: mark) (hi : c :: mark <:+: hidden) :
    c :: mark <:+: text := by
  induction h with
  | nil => exact hi
  | @char d text hidden h ih =>
    rcases List.infix_cons_iff.1 hi with hp | hi
    · exact (h.char.isPrefix hm hp).isInfix
    · exact (ih hi).trans (List.suffix_cons d text).isInfix
  | @part id part text hidden h ih =>
    have hid : c ∉ guard.placeholder id := (isWord_placeholder issued id).notMem hs ho
    exact (ih (Text.infix_of_infix_append hid hi)).trans (List.suffix_append part text).isInfix

theorem Masked.closer_isInfix (issued : guard.IsIssued) (h : Masked guard text hidden)
    {kind : SpanKind} (hi : kind.closer <:+: hidden) : kind.closer <:+: text := by
  cases kind with
  | expression =>
    exact h.isInfix issued ⟨by decide, by decide⟩ ⟨by decide, by decide⟩ (by decide) hi
  | tag => exact h.isInfix issued ⟨by decide, by decide⟩ ⟨by decide, by decide⟩ (by decide) hi
  | comment =>
    exact h.isInfix issued ⟨by decide, by decide⟩ ⟨by decide, by decide⟩ (by decide) hi

/-- A character that begins no span of the text begins none of the hidden text: the character next
to it is the same, or begins a placeholder, and no closing characters come up. -/
theorem Masked.match?_eq_none {c : Char} (issued : guard.IsIssued) (h : Masked guard text hidden)
    (hn : Span.match? (c :: text) = none) : Span.match? (c :: hidden) = none := by
  refine Option.eq_none_iff_forall_ne_some.2 fun ⟨span, rest⟩ hm => ?_
  obtain ⟨rfl, after, rfl, hcut⟩ := Span.match?_cons_eq_some_iff.1 hm
  have hmark : span.kind.mark ≠ opener := by cases span.kind <;> decide
  obtain ⟨text, rfl, htail⟩ := h.of_cons hmark
  have hi : span.kind.closer <:+: after := by
    rw [Text.eq_append_of_cut? hcut]
    exact List.infix_append _ _ _
  have hcloser := htail.closer_isInfix issued hi
  have hsome : Text.cut? span.kind.closer text ≠ none := fun hcut =>
    (Text.cut?_eq_none_iff (SpanKind.closer_ne_nil _)).1 hcut hcloser
  obtain ⟨⟨body, last⟩, hbody⟩ := Option.ne_none_iff_exists'.1 hsome
  have hspan : Span.match? ('{' :: span.kind.mark :: text) = some (⟨span.kind, body⟩, last) :=
    Span.match?_cons_eq_some_iff.2 ⟨rfl, text, rfl, hbody⟩
  rw [hspan] at hn
  cases hn

theorem misses_placeholder (issued : guard.IsIssued) (id : Nat) :
    Span.pattern.Misses (guard.placeholder id) :=
  Pattern.misses_of_notMem (fun _ rest hd => Span.match?_eq_none_of_ne hd rest)
    ((isWord_placeholder issued id).notMem ⟨by decide, by decide⟩ ⟨by decide, by decide⟩)

/-- The spans of a hidden text are the tags of the layout among the pieces of the text. -/
theorem spans_number (issued : guard.IsIssued)
    (h : Span.pattern.pieces (Span.join pieces) = pieces) :
    Span.spans (guard.write (number first pieces)) =
      (pieces.filterMap Piece.item?).filter (·.isStructural) := by
  induction pieces generalizing first with
  | nil => simp [number, Span.spans, Pattern.items]
  | cons piece pieces ih =>
    have ih : ∀ {later : Nat}, Span.spans (guard.write (number later pieces)) =
        (pieces.filterMap Piece.item?).filter (·.isStructural) := ih (Span.pieces_join_tail h)
    cases piece with
    | char c =>
      have hnone : Span.pattern.match? (c :: guard.write (number first pieces)) = none :=
        (masked_number pieces first).match?_eq_none issued (Span.match?_eq_none_of_pieces h)
      rw [number, write_char, Span.spans, Pattern.items,
        Span.pattern.pieces_cons_of_match?_eq_none hnone]
      exact ih
    | item span =>
      have hmem : .item span ∈ Span.pattern.pieces (Span.join (.item span :: pieces)) := by
        rw [h]
        exact List.mem_cons_self
      have hspan := Span.isProper_of_mem_pieces hmem (guard.write (number first pieces))
      have hitem : (Piece.item span :: pieces).filterMap Piece.item? =
          span :: pieces.filterMap Piece.item? := rfl
      by_cases hs : span.isStructural
      · simp only [number, hs, if_true, write_append, write_map_char]
        rw [Span.spans, Pattern.items_of_match? hspan, hitem,
          List.filter_cons_of_pos hs]
        exact congrArg _ ih
      · simp only [number, hs, Bool.false_eq_true, if_false, write_item]
        rw [Span.spans, Pattern.items_append_of_misses (misses_placeholder issued first),
          hitem, List.filter_cons_of_neg hs]
        exact ih

theorem write_number_eq_join (h : secrets pieces = []) :
    guard.write (number first pieces) = Span.join pieces := by
  induction pieces with
  | nil => rfl
  | cons piece pieces ih =>
    cases piece with
    | char c => rw [number, write_char, Span.join_char, ih h]
    | item span =>
      by_cases hs : span.isStructural
      · rw [secrets_structural hs] at h
        simp only [number, hs, if_true, write_append, write_map_char, Span.join_item, ih h]
      · rw [secrets_item hs] at h
        cases h

theorem hide_eq_self (h : ∀ span ∈ Span.spans text, span.isStructural = true) :
    guard.hide text = (guard, text) := by
  have hsecrets : secretsOf text = [] := by
    refine List.filter_eq_nil_iff.2 fun span hm => ?_
    simp [h span hm]
  rw [hide_eq, hsecrets, remember_nil, numbered, write_number_eq_join hsecrets, Span.join_pieces]

theorem keyword_mem_of_isStructural {span : Span} (h : span.isStructural = true) :
    span.keyword ∈ ["block".toList, "endblock".toList, "extends".toList] :=
  List.contains_iff_mem.1 h

/-- One pass hides everything that is to be hidden. The spans of the hidden text are the tags of the
layout that the text has, in their order; the other spans are added to the table in their order, each
with the kind that its first characters say; and hiding the text again, by this guard or by any other,
adds nothing and changes nothing. -/
theorem spans_hide {guard : Guard} (issued : guard.IsIssued) (source : Text) :
    let after := (guard.hide source).1
    let hidden := (guard.hide source).2
    Span.spans hidden = (Span.spans source).filter (·.isStructural) ∧
      (∀ span ∈ Span.spans hidden, span.kind = .tag ∧
        span.keyword ∈ ["block".toList, "endblock".toList, "extends".toList]) ∧
      after.nonce = guard.nonce ∧
      after.hidden.toList =
        guard.hidden.toList ++ (Span.spans source).filter (!·.isStructural) ∧
      (∀ span ∈ Span.spans source, span.kind.opener <+: span.text ∧ span.text <:+: source) ∧
      ∀ other : Guard, other.hide hidden = (other, hidden) := by
  intro after hidden
  have heq : guard.hide source = _ := hide_eq source
  have hspans : Span.spans hidden = (Span.spans source).filter (·.isStructural) := by
    rw [show hidden = _ from congrArg Prod.snd heq]
    exact spans_number issued (congrArg Span.pattern.pieces (Span.join_pieces source))
  have hlayout : ∀ span ∈ Span.spans hidden, span.isStructural = true := by
    intro span hm
    rw [hspans] at hm
    exact (List.mem_filter.1 hm).2
  refine ⟨hspans, fun span hm => ?_, ?_, ?_, fun span hm => ⟨?_, ?_⟩, fun other => ?_⟩
  · exact ⟨kind_of_isStructural (hlayout span hm), keyword_mem_of_isStructural (hlayout span hm)⟩
  · rw [show after = _ from congrArg Prod.fst heq, nonce_remember]
  · rw [show after = _ from congrArg Prod.fst heq, toList_remember]
    rfl
  · exact ⟨span.body ++ span.kind.closer, by simp [Span.text]⟩
  · exact Pattern.infix_of_mem_items hm
  · exact hide_eq_self hlayout

/-- A brace that would begin a tag with what stands behind the comment, were the comment taken out
with no placeholder in its place. -/
theorem spans_hide_brace :
    let guard : Guard := .fresh "Ab-9_z".toList
    let source := "\x7b\x7b# x #\x7d% if y %\x7d\x7b% block a %\x7d".toList
    guard.IsIssued ∧ Span.spans (guard.hide source).2 = [⟨.tag, " block a ".toList⟩] ∧
      ∀ other : Guard, other.hide (guard.hide source).2 = (other, (guard.hide source).2) := by
  have issued : (Guard.fresh "Ab-9_z".toList).IsIssued := by decide +kernel
  obtain ⟨hspans, -, -, -, -, hagain⟩ := spans_hide issued
    "\x7b\x7b# x #\x7d% if y %\x7d\x7b% block a %\x7d".toList
  refine ⟨issued, hspans.trans ?_, hagain⟩
  decide +kernel

end
end Guard
end MailTemplate
