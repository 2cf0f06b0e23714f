import MailTemplate.Proofs.Template.Tags
import MailTemplate.Proofs.Text.Misses
import MailTemplate.Template.Layout

/-! The parts of a template: blocks, and the text around them. Where the text between tags holds no
tags of its own, a template that is put together from parts is taken apart into the same parts, and
replacing blocks is replacing parts. -/

namespace MailTemplate
open Text

/-- Text that is neither cut by a tag nor the beginning of one: it holds no tag of a block, every tag
that begins in it also ends in it, and it does not end in a brace. -/
structure Text.IsInert (text : Text) : Prop where
  noBlockTag : ∀ tag : BlockTag, tag.WellFormed → ¬ tag.text <:+: text
  noEndTag : ∀ tag : EndTag, tag.WellFormed → ¬ tag.text <:+: text
  closed : ∀ rest, '{' :: '%' :: rest <:+ text → ['%', '}'] <:+: '%' :: rest
  noBrace : text.getLast? ≠ some '{'

/-- A block between well formed tags, with inert text in it. -/
structure Block.WellFormed (block : Block) : Prop where
  tag : block.tag.WellFormed
  body : (trim block.body).IsInert
  close : block.close.WellFormed

/-- A part of a template: a block, or text outside of the blocks. -/
inductive Part where
  | outer (text : Text)
  | block (block : Block)
  deriving Repr, DecidableEq

namespace Part

def text : Part → Text
  | outer text => text
  | block b => b.text

def textAll (parts : List Part) : Text := parts.flatMap text

/-- A part that is read as what it is. -/
def WellFormed : Part → Prop
  | outer text => text.IsInert
  | block b => b.WellFormed

/-- The block of a part, if it is one. -/
def block? : Part → Option Block
  | outer _ => none
  | block b => some b

def blocks (parts : List Part) : List Block := parts.filterMap block?

end Part

namespace Text

section
variable {text part rest tail inner inside : Text}

theorem IsInert.exists_inside (h : text.IsInert) (hp : part <:+ text) (hn : part ≠ [])
    (he : part ++ rest = '{' :: '%' :: tail) :
    ∃ inside, part = '{' :: '%' :: inside ∧ inside ++ rest = tail ∧ '}' ∈ inside := by
  cases part with
  | nil => exact absurd rfl hn
  | cons c part =>
    simp only [List.cons_append, List.cons.injEq] at he
    obtain ⟨rfl, he⟩ := he
    cases part with
    | nil =>
      obtain ⟨front, rfl⟩ := hp
      exact absurd (by simp) h.noBrace
    | cons c inside =>
      simp only [List.cons_append, List.cons.injEq] at he
      obtain ⟨rfl, he⟩ := he
      refine ⟨inside, rfl, he, ?_⟩
      have hclosed := (h.closed inside hp).subset (List.mem_cons_of_mem '%' List.mem_cons_self)
      simpa using hclosed

theorem exists_eq_append (hi : '}' ∉ inner) (hm : '}' ∈ inside)
    (h : inside ++ rest = inner ++ tail) : ∃ after, inside = inner ++ after ∧ tail = after ++ rest := by
  rcases List.append_eq_append_iff.1 h with ⟨after, rfl, -⟩ | ⟨after, rfl, ht⟩
  · exact absurd (List.mem_append_left after hm) hi
  · exact ⟨after, rfl, ht⟩

theorem IsInert.tag_infix (h : text.IsInert) (hp : part <:+ text) (hn : part ≠ [])
    (hi : ∀ c ∈ inner, IsTagChar c)
    (he : part ++ rest = '{' :: '%' :: (inner ++ ['%', '}']) ++ tail) :
    '{' :: '%' :: (inner ++ ['%', '}']) <:+: text := by
  have hbrace : '}' ∉ inner := fun hm =>
    (hi _ hm).ne (by decide) (by decide) (by decide) rfl
  have htag : part ++ rest = '{' :: '%' :: (inner ++ '%' :: '}' :: tail) := by simpa using he
  obtain ⟨inside, rfl, hinside, hm⟩ := h.exists_inside hp hn htag
  obtain ⟨after, rfl, ha⟩ := exists_eq_append hbrace hm hinside
  have hafter : '}' ∈ after := (List.mem_append.1 hm).resolve_left hbrace
  obtain ⟨last, rfl⟩ : ∃ last, after = '%' :: '}' :: last := by
    cases after with
    | nil => cases hafter
    | cons c after =>
      simp only [List.cons_append, List.cons.injEq] at ha
      obtain ⟨rfl, ha⟩ := ha
      cases after with
      | nil => simp at hafter
      | cons c last =>
        simp only [List.cons_append, List.cons.injEq] at ha
        exact ⟨last, by rw [ha.1]⟩
  refine List.IsInfix.trans ⟨[], last, ?_⟩ hp.isInfix
  simp

end
end Text

section
variable {text : Text}

theorem Text.isInert_iff : text.IsInert ↔
    (∀ part ∈ text.tails, BlockTag.match? part = none ∧ EndTag.match? part = none ∧
      (['{', '%'] <+: part → ['%', '}'] <:+: part.drop 1)) ∧ text.getLast? ≠ some '{' := by
  constructor
  · intro h
    refine ⟨fun part hp => ?_, h.noBrace⟩
    have hp : part <:+ text := (List.mem_tails _ _).1 hp
    refine ⟨?_, ?_, ?_⟩
    · cases hm : BlockTag.match? part with
      | none => rfl
      | some found =>
        obtain ⟨htag, rfl⟩ := BlockTag.match?_eq_some_iff.1 hm
        exact absurd ((List.prefix_append _ _).isInfix.trans hp.isInfix) (h.noBlockTag _ htag)
    · cases hm : EndTag.match? part with
      | none => rfl
      | some found =>
        obtain ⟨htag, rfl⟩ := EndTag.match?_eq_some_iff.1 hm
        exact absurd ((List.prefix_append _ _).isInfix.trans hp.isInfix) (h.noEndTag _ htag)
    · rintro ⟨rest, rfl⟩
      exact h.closed rest hp
  · rintro ⟨h, hbrace⟩
    refine ⟨?_, ?_, ?_, hbrace⟩
    · rintro tag htag ⟨front, back, he⟩
      have hm := (h (tag.text ++ back) ((List.mem_tails _ _).2 ⟨front, by simp [← he]⟩)).1
      rw [BlockTag.match?_text_append htag] at hm
      cases hm
    · rintro tag htag ⟨front, back, he⟩
      have hm := (h (tag.text ++ back) ((List.mem_tails _ _).2 ⟨front, by simp [← he]⟩)).2.1
      rw [EndTag.match?_text_append htag] at hm
      cases hm
    · intro rest hr
      exact (h _ ((List.mem_tails _ _).2 hr)).2.2 ⟨rest, rfl⟩

instance : Decidable text.IsInert :=
  @decidable_of_iff _ _ Text.isInert_iff.symm
    (@instDecidableAnd _ _ (List.decidableBAll _ _) inferInstance)

instance (block : Block) : Decidable block.WellFormed :=
  decidable_of_iff (block.tag.WellFormed ∧ (trim block.body).IsInert ∧ block.close.WellFormed)
    ⟨fun ⟨tag, body, close⟩ => ⟨tag, body, close⟩, fun ⟨tag, body, close⟩ => ⟨tag, body, close⟩⟩

instance Part.decidableWellFormed : (part : Part) → Decidable part.WellFormed
  | .outer text => inferInstanceAs (Decidable text.IsInert)
  | .block b => inferInstanceAs (Decidable b.WellFormed)

theorem BlockTag.match?_eq_none_of_ne {c : Char} (h : c ≠ '{') (rest : Text) :
    match? (c :: rest) = none := by
  simp [match?, TagStart.match?_eq_none_of_ne h]

theorem Block.match?_eq_none {source : Text} (h : BlockTag.match? source = none) :
    match? source = none := by
  simp [match?, h]

theorem EndTag.match?_eq_none_of_ne {c : Char} (h : c ≠ '{') (rest : Text) :
    match? (c :: rest) = none := by
  simp [match?, TagStart.match?_eq_none_of_ne h]

theorem ReferenceTag.match?_eq_none_of_ne {keyword : Text} {c : Char} (h : c ≠ '{') (rest : Text) :
    match? keyword (c :: rest) = none := by
  simp [match?, TagStart.match?_eq_none_of_ne h]

theorem ReferenceTag.match?_eq_none_of_start {keyword source rest : Text} {start : TagStart}
    (hs : TagStart.match? source = some (start, rest)) (hk : after? keyword rest = none) :
    match? keyword source = none := by
  simp [match?, hs, hk]

theorem Text.IsInert.misses_block (h : text.IsInert) : Block.pattern.Misses text := by
  intro part rest hp hn
  apply Block.match?_eq_none
  cases hm : BlockTag.match? (part ++ rest) with
  | none => rfl
  | some found =>
    obtain ⟨tag, after⟩ := found
    obtain ⟨htag, he⟩ := BlockTag.match?_eq_some_iff.1 hm
    rw [BlockTag.text_eq] at he
    refine absurd ?_ (h.noBlockTag tag htag)
    rw [BlockTag.text_eq]
    exact h.tag_infix hp hn (fun c => BlockTag.isTagChar_inner htag) he

theorem Text.IsInert.misses_end (h : text.IsInert) : EndTag.pattern.Misses text := by
  intro part rest hp hn
  cases hm : EndTag.pattern.match? (part ++ rest) with
  | none => rfl
  | some found =>
    obtain ⟨tag, after⟩ := found
    obtain ⟨htag, he⟩ := EndTag.match?_eq_some_iff.1 hm
    rw [EndTag.text_eq] at he
    refine absurd ?_ (h.noEndTag tag htag)
    rw [EndTag.text_eq]
    exact h.tag_infix hp hn (fun c => EndTag.isTagChar_inner htag) he

theorem Text.IsInert.misses_reference {keyword whole : Text} (h : text.IsInert)
    (hk : '}' ∉ keyword) (ht : text <:+: whole) (hw : ¬ HoldsWord keyword whole) :
    (ReferenceTag.pattern keyword).Misses text := by
  intro part rest hp hn
  cases hm : (ReferenceTag.pattern keyword).match? (part ++ rest) with
  | none => rfl
  | some found =>
    obtain ⟨tag, after⟩ := found
    obtain ⟨hstart, hgap, tail, he⟩ := ReferenceTag.prefix_of_match? hm
    have hinner : '}' ∉ tag.start.inner ++ keyword ++ tag.gap := by
      simp only [List.mem_append, not_or]
      refine ⟨⟨fun hc => ?_, hk⟩, fun hc => absurd (hgap.2 _ hc) (by decide)⟩
      exact (TagStart.isTagChar_inner hstart hc).ne (by decide) (by decide) (by decide) rfl
    have htag : part ++ rest = '{' :: '%' :: (tag.start.inner ++ keyword ++ tag.gap ++ tail) := by
      simpa using he.symm
    obtain ⟨inside, rfl, hinside, hbrace⟩ := h.exists_inside hp hn htag
    obtain ⟨last, rfl, -⟩ := exists_eq_append hinner hbrace hinside
    obtain ⟨before, behind, hwhole⟩ := hp.isInfix.trans ht
    refine absurd ⟨before ++ ['{'] ++ '%' :: tag.start.inner, tag.gap ++ (last ++ behind), ?_,
      fun c hc => ?_, hgap.head_append isWord_of_isSpace _⟩ hw
    · simp [← hwhole]
    · rw [List.getLast?_append_of_ne_nil _ (List.cons_ne_nil _ _)] at hc
      exact TagStart.isWord_of_mem hstart (List.mem_of_getLast? hc)

theorem Text.exists_eq_trim (text : Text) : ∃ front back, text = front ++ (trim text ++ back) ∧
    (∀ c ∈ front, isSpace c = true) ∧ ∀ c ∈ back, isSpace c = true := by
  refine ⟨spaceOf text, ((dropSpace text).reverse.takeWhile isSpace).reverse, ?_,
    fun c hc => List.mem_takeWhile_imp hc,
    fun c hc => List.mem_takeWhile_imp (List.mem_reverse.1 hc)⟩
  have hend : trim text ++ ((dropSpace text).reverse.takeWhile isSpace).reverse = dropSpace text := by
    rw [trim, trimEnd, dropEndWhile, ← List.reverse_append, List.takeWhile_append_dropWhile,
      List.reverse_reverse]
  rw [hend, spaceOf_append_dropSpace]

theorem Text.infix_trim (text : Text) : trim text <:+: text := by
  obtain ⟨front, back, he, -⟩ := exists_eq_trim text
  exact ⟨front, back, by rw [List.append_assoc, ← he]⟩

end

namespace Pattern

section
variable {α : Type} {pattern : Pattern α}

theorem misses_of_trim (hbrace : ∀ {c} (_ : c ≠ '{') (rest : Text), pattern.match? (c :: rest) = none)
    {text : Text} (h : pattern.Misses (trim text)) : pattern.Misses text := by
  have hspace : ∀ space : Text, (∀ c ∈ space, isSpace c = true) → pattern.Misses space :=
    fun space hs => misses_of_notMem (fun c rest hc => hbrace hc rest) fun hm =>
      absurd (hs _ hm) (by decide)
  obtain ⟨front, back, he, hfront, hback⟩ := exists_eq_trim text
  rw [he]
  exact (hspace front hfront).append (h.append (hspace back hback))

end
end Pattern

namespace Block

section
variable {α : Type} {pattern : Pattern α} {block : Block}

theorem match?_text_append (h : block.WellFormed) (rest : Text) :
    match? (block.text ++ rest) = some (block, rest) := by
  obtain ⟨tag, body, close⟩ := block
  have htag : BlockTag.match? (tag.text ++ (body ++ (close.text ++ rest))) =
      some (tag, body ++ (close.text ++ rest)) := BlockTag.match?_text_append h.tag _
  have hclose : EndTag.pattern.first? (body ++ (close.text ++ rest)) = some (body, close, rest) :=
    Pattern.first?_append_of_match? (Pattern.misses_of_trim EndTag.match?_eq_none_of_ne h.body.misses_end)
      (EndTag.match?_text_append h.close rest)
  simp [match?, text, htag, ofTag?, hclose]

/-- Behind its first brace, a block holds no item of a pattern of tags that its body does not hold
and that is no closing tag. -/
theorem misses_tail (hbrace : ∀ {c} (_ : c ≠ '{') (rest : Text), pattern.match? (c :: rest) = none)
    (h : block.WellFormed) (hbody : pattern.Misses (trim block.body))
    (hclose : ∀ rest, pattern.match? (block.close.text ++ rest) = none) :
    ∃ tail, block.text = '{' :: tail ∧ pattern.Misses tail := by
  have hinner : ∀ inner : Text, (∀ c ∈ inner, IsTagChar c) →
      pattern.Misses ('%' :: (inner ++ ['%', '}'])) := by
    intro inner hi
    refine Pattern.misses_of_notMem (fun c rest hc => hbrace hc rest) fun hm => ?_
    have hm : '{' ∈ inner := by simpa using hm
    exact (hi _ hm).ne (by decide) (by decide) (by decide) rfl
  have hopening := hinner _ fun c => BlockTag.isTagChar_inner h.tag
  have hclosing := hinner _ fun c => EndTag.isTagChar_inner h.close
  refine ⟨'%' :: (block.tag.inner ++ ['%', '}']) ++ (block.body ++ block.close.text), ?_, ?_⟩
  · simp [text, BlockTag.text_eq]
  · refine hopening.append ((Pattern.misses_of_trim hbrace hbody).append ?_)
    rw [EndTag.text_eq] at hclose ⊢
    exact Pattern.misses_cons_iff.2 ⟨hclose, hclosing⟩

theorem misses_extends (h : block.WellFormed)
    (hw : ¬ HoldsWord "extends".toList block.body) : Layout.extendsTag.Misses block.text := by
  have hopen : ∀ rest, Layout.extendsTag.match? (block.text ++ rest) = none := by
    intro rest
    rw [text, List.append_assoc, List.append_assoc]
    exact ReferenceTag.match?_eq_none_of_start (BlockTag.match?_start h.tag _) rfl
  have hclose : ∀ rest, Layout.extendsTag.match? (block.close.text ++ rest) = none := fun rest =>
    ReferenceTag.match?_eq_none_of_start (EndTag.match?_start h.close rest) rfl
  have hbody : Layout.extendsTag.Misses (trim block.body) :=
    h.body.misses_reference (by decide) (infix_trim _) hw
  obtain ⟨tail, htail, hmisses⟩ :=
    misses_tail ReferenceTag.match?_eq_none_of_ne h hbody hclose
  rw [htail] at hopen ⊢
  exact Pattern.misses_cons_iff.2 ⟨hopen, hmisses⟩

end
end Block

namespace Block

section
variable {parts : List Part}

end
end Block

namespace Part

section
variable {parts : List Part}

@[simp] theorem textAll_nil : textAll [] = [] := rfl

@[simp] theorem textAll_cons (part : Part) (parts : List Part) :
    textAll (part :: parts) = part.text ++ textAll parts := rfl

theorem items_textAll (h : ∀ part ∈ parts, part.WellFormed) :
    Block.pattern.items (textAll parts) = blocks parts := by
  induction parts with
  | nil => simp [Pattern.items, blocks]
  | cons part parts ih =>
    have ih := ih fun part hm => h part (List.mem_cons_of_mem _ hm)
    have hpart := h part List.mem_cons_self
    rw [textAll_cons]
    cases part with
    | outer outer =>
      rw [text, Pattern.items_append_of_misses hpart.misses_block, ih]
      rfl
    | block b =>
      rw [text, Pattern.items_of_match? (Block.match?_text_append hpart _), ih]
      rfl

def replace (p : Block → Bool) (f : Block → Part) : Part → Part
  | outer text => outer text
  | block b => if p b then f b else block b

end
end Part
end MailTemplate
