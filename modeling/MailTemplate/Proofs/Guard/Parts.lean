import MailTemplate.Proofs.Guard.Written
import MailTemplate.Proofs.Markup.Reading

/-! Spans counted by parts. A hidden text that lies in parts, with nothing between them that could
belong to a span, has the spans of its parts; and a text that is written of such parts again shows their
spans, when it is revealed, and no others. -/

namespace MailTemplate
namespace Guard

/-- A text that consists of parts in order and of characters between them that begin neither a span
nor a placeholder. -/
inductive Laid (words : Text → Prop) : List Text → Text → Prop
  | nil : Laid words [] []
  | between {c : Char} {parts : List Text} {text : Text} : c ≠ '{' → c ≠ opener →
      Laid words parts text → Laid words parts (c :: text)
  | part {first : Text} {parts : List Text} {text : Text} : Sound words first →
      Laid words parts text → Laid words (first :: parts) (first ++ text)

/-- The spans that a part of a hidden text stands for. -/
def spansOf (guard : Guard) (part : Text) : List Span := Span.spans (guard.reveal part)

/-- A text that is written as the given spans, in some order, with characters between them that leave
no span of the given kinds open. -/
def Shows (guard : Guard) (kinds : SpanKind → Prop) (spans : List Span) (text : Text) : Prop :=
  ∃ pieces, Written guard pieces text ∧ (pieces.filterMap Piece.item?).Perm spans ∧
    (∀ span, .item span ∈ pieces → span.IsProper) ∧
      ∀ kind, kinds kind → Span.closes kind pieces = true

def escapePiece : Piece Span → List (Piece Span)
  | .char c => if c = '"' then "&quot;".toList.map .char else [.char c]
  | .item span => [.item span]

section
variable {guard : Guard} {words : Text → Prop} {parts : List Text} {text rest : Text}

theorem Laid.append {more : List Text} (h : Laid words parts text) (hr : Laid words more rest) :
    Laid words (parts ++ more) (text ++ rest) := by
  induction h with
  | nil => exact hr
  | between hc ho _ ih => exact .between hc ho ih
  | part hs _ ih =>
    rw [List.append_assoc]
    exact .part hs ih

theorem Laid.of_part (h : Sound words text) : Laid words [text] text := by
  have hl := Laid.part h Laid.nil
  rwa [List.append_nil] at hl

theorem laid_of_notMem (hc : '{' ∉ text) (ho : opener ∉ text) : Laid words [] text := by
  induction text with
  | nil => exact .nil
  | cons c text ih =>
    rw [List.mem_cons, not_or] at hc ho
    exact .between (fun he => hc.1 he.symm) (fun he => ho.1 he.symm) (ih hc.2 ho.2)

theorem Written.eq_nil {pieces : List (Piece Span)} (h : Written guard pieces []) :
    pieces = [] := by
  generalize hwhole : ([] : Text) = whole at h
  cases h with
  | nil => rfl
  | char _ _ _ => cases hwhole
  | layout _ _ _ _ =>
    rw [Span.text, SpanKind.opener_eq] at hwhole
    cases hwhole
  | hidden _ _ => cases hwhole

theorem Written.of_cons {pieces : List (Piece Span)} {c : Char} (hc : c ≠ '{') (ho : c ≠ opener)
    (h : Written guard pieces (c :: text)) :
    ∃ later, pieces = .char c :: later ∧ Written guard later text := by
  generalize hwhole : c :: text = whole at h
  cases h with
  | nil => cases hwhole
  | char _ _ ht =>
    obtain ⟨rfl, rfl⟩ := List.cons.inj hwhole
    exact ⟨_, rfl, ht⟩
  | @layout span _ _ _ _ _ _ =>
    rw [Span.text, SpanKind.opener_eq] at hwhole
    exact absurd (List.cons.inj hwhole).1 hc
  | hidden _ _ => exact absurd (List.cons.inj hwhole).1 ho

/-- Every part of a hidden text is written as the pieces that it reveals, and the pieces of the whole
are the pieces of the parts, provided that no part cuts a tag of the layout. -/
theorem Laid.settled {pieces : List (Piece Span)} (issued : guard.IsIssued)
    (hl : Laid guard.IsPlaceholder parts text) (h : Written guard pieces text)
    (hpieces : Span.pattern.pieces (Span.join pieces) = pieces)
    (uncut : (∀ part ∈ parts, Span.IsClosed .tag (guard.reveal part)) ∨
      ∀ span, .item span ∈ pieces → ¬ span.isStructural = true) :
    (∀ part ∈ parts, guard.Settled part) ∧
      pieces.filterMap Piece.item? = parts.flatMap guard.spansOf := by
  induction hl generalizing pieces with
  | nil =>
    rw [h.eq_nil]
    simp
  | between hc ho _ ih =>
    obtain ⟨later, rfl, ht⟩ := h.of_cons hc ho
    have huncut : (∀ part ∈ _, Span.IsClosed .tag (guard.reveal part)) ∨
        ∀ span, .item span ∈ later → ¬ span.isStructural = true :=
      uncut.imp_right fun hu span hm => hu span (List.mem_cons_of_mem _ hm)
    have hlater : Span.pattern.pieces (Span.join later) = later :=
      Span.pieces_join_tail hpieces
    obtain ⟨hsettled, hitems⟩ := ih ht hlater huncut
    exact ⟨hsettled, hitems⟩
  | @part front parts text hs _ ih =>
    rcases h.split issued hs with ⟨first, later, rfl, hf, hlater⟩ |
      ⟨first, span, later, before, cut, after, rfl, hspan, hcut, rfl, htext, hn, ha, hf⟩
    · obtain ⟨hfirst, hpl⟩ := Span.pieces_join_append hpieces List.nil_prefix
      rw [List.append_nil, Span.pattern.pieces_nil, List.append_nil] at hfirst
      have huncut : (∀ part ∈ parts, Span.IsClosed .tag (guard.reveal part)) ∨
          ∀ span, .item span ∈ later → ¬ span.isStructural = true :=
        uncut.imp (fun hu part hm => hu part (List.mem_cons_of_mem _ hm))
          fun hu span hm => hu span (List.mem_append_right _ hm)
      obtain ⟨hsettled, hitems⟩ := ih hlater hpl huncut
      refine ⟨fun part hm => ?_, ?_⟩
      · rcases List.mem_cons.1 hm with rfl | hm
        · rw [Settled, hf.reveal, hfirst]
          exact hf
        · exact hsettled part hm
      · have hfront : guard.spansOf front = first.filterMap Piece.item? := by
          rw [spansOf, hf.reveal, Span.spans, Pattern.items, hfirst]
        rw [List.filterMap_append, hitems, List.flatMap_cons, hfront]
    · -- the part ends inside a tag of the layout, so it leaves a tag open
      rcases uncut with hu | hu
      · have hreveal : guard.reveal (before ++ cut) = Span.join first ++ cut := by
          have hr := hf.reveal_append cut
          rw [hr, reveal_of_notMem hcut]
        have hclosed := hu _ List.mem_cons_self
        rw [hreveal] at hclosed
        exact absurd hclosed (not_isClosed_of_cut hpieces hspan htext hn ha)
      · exact absurd hspan (hu span (List.mem_append_right _ List.mem_cons_self))

section
variable {kinds : SpanKind → Prop} {spans : List Span}

theorem shows_nil : guard.Shows kinds [] [] := by
  refine ⟨[], .nil, .nil, fun span hm => ?_, fun kind _ => rfl⟩
  cases hm

theorem Shows.append {more : List Span} (h : guard.Shows kinds spans text)
    (hr : guard.Shows kinds more rest) : guard.Shows kinds (spans ++ more) (text ++ rest) := by
  obtain ⟨first, hw, hp, hproper, hc⟩ := h
  obtain ⟨later, hw', hp', hproper', hc'⟩ := hr
  refine ⟨first ++ later, hw.append hw', ?_, fun span hm => ?_, fun kind hk => ?_⟩
  · rw [List.filterMap_append]
    exact hp.append hp'
  · rcases List.mem_append.1 hm with hm | hm
    · exact hproper span hm
    · exact hproper' span hm
  · exact Span.closes_append (hc kind hk) (hc' kind hk)

theorem shows_of_notMem (hb : '{' ∉ text) (ho : opener ∉ text) (hc : closer ∉ text) :
    guard.Shows kinds [] text := by
  refine ⟨text.map .char, written_map_char ho hc, ?_, fun span hm => ?_, fun kind _ =>
    Span.closes_map_char hb⟩
  · have hpieces : (text.map Piece.char : List (Piece Span)).filterMap Piece.item? = [] := by
      simp [Piece.item?]
    rw [hpieces]
  · obtain ⟨c, -, hc⟩ := List.mem_map.1 hm
    cases hc

theorem Settled.shows (h : guard.Settled text)
    (hc : ∀ kind, kinds kind → Span.IsClosed kind (guard.reveal text)) :
    guard.Shows kinds (guard.spansOf text) text :=
  ⟨_, h, .refl _, fun _ => Span.isProper_of_mem_pieces, hc⟩

theorem Written.escape {pieces : List (Piece Span)} (issued : guard.IsIssued)
    (h : Written guard pieces text)
    (hq : ∀ span, .item span ∈ pieces → span.isStructural = true → '"' ∉ span.text) :
    Written guard (pieces.flatMap escapePiece) (Attribute.escape text) := by
  induction h with
  | nil => exact .nil
  | @char c pieces text ho hc _ ih =>
    have ih := ih fun span hm => hq span (List.mem_cons_of_mem _ hm)
    by_cases hquote : c = '"'
    · subst hquote
      have hentity : Written guard ("&quot;".toList.map .char) "&quot;".toList :=
        written_map_char (by decide) (by decide)
      exact hentity.append ih
    · have hpiece : escapePiece (.char c) = [.char c] := if_neg hquote
      have hchar : Attribute.escape (c :: text) = c :: Attribute.escape text := by
        rw [Attribute.escape, List.flatMap_cons, if_neg hquote]
        rfl
      rw [List.flatMap_cons, hpiece, hchar]
      exact .char ho hc ih
  | @layout span pieces text hs ho hc _ ih =>
    have ih := ih fun span hm => hq span (List.mem_cons_of_mem _ hm)
    have hspan : Attribute.escape (span.text ++ text) = span.text ++ Attribute.escape text := by
      rw [Attribute.escape, List.flatMap_append]
      exact congrArg (· ++ _) (Attribute.escape_of_notMem (hq span List.mem_cons_self hs))
    rw [hspan]
    exact .layout hs ho hc ih
  | @hidden id span pieces text hs _ ih =>
    have ih := ih fun span hm => hq span (List.mem_cons_of_mem _ hm)
    have hid : '"' ∉ guard.placeholder id :=
      (isWord_placeholder issued id).notMem ⟨by decide, by decide⟩ ⟨by decide, by decide⟩
    have hword : Attribute.escape (guard.placeholder id ++ text) =
        guard.placeholder id ++ Attribute.escape text := by
      rw [Attribute.escape, List.flatMap_append]
      exact congrArg (· ++ _) (Attribute.escape_of_notMem hid)
    rw [hword]
    exact .hidden hs ih

theorem filterMap_escapePiece (pieces : List (Piece Span)) :
    (pieces.flatMap escapePiece).filterMap Piece.item? = pieces.filterMap Piece.item? := by
  induction pieces with
  | nil => rfl
  | cons piece pieces ih =>
    rw [List.flatMap_cons, List.filterMap_append, ih]
    cases piece with
    | char c =>
      by_cases hc : c = '"'
      · subst hc
        rfl
      · have hpiece : escapePiece (.char c) = [.char c] := if_neg hc
        rw [hpiece]
        rfl
    | item span => rfl

theorem head?_join_escapePiece (pieces : List (Piece Span)) :
    (Span.join (pieces.flatMap escapePiece)).head? =
      (Span.join pieces).head?.map fun c => if c = '"' then '&' else c := by
  cases pieces with
  | nil => rfl
  | cons piece pieces =>
    rw [List.flatMap_cons, Span.join_append]
    cases piece with
    | char c =>
      by_cases hc : c = '"'
      · subst hc
        rfl
      · have hpiece : escapePiece (.char c) = [.char c] := if_neg hc
        rw [hpiece]
        simp [hc]
    | item span =>
      have htext : span.text = '{' :: span.kind.mark :: (span.body ++ span.kind.closer) := by
        rw [Span.text, SpanKind.opener_eq]
        rfl
      have hpiece : escapePiece (.item span) = [.item span] := rfl
      rw [hpiece, Span.join_item, Span.join_item, htext]
      rfl

theorem closes_escapePiece {kind : SpanKind} {pieces : List (Piece Span)}
    (h : Span.closes kind pieces = true) :
    Span.closes kind (pieces.flatMap escapePiece) = true := by
  induction pieces with
  | nil => rfl
  | cons piece pieces ih =>
    cases piece with
    | item span => exact ih h
    | char c =>
      rw [Span.closes, Bool.and_eq_true] at h
      by_cases hc : c = '"'
      · subst hc
        exact Span.closes_append (Span.closes_map_char (by decide)) (ih h.2)
      · have hpiece : escapePiece (.char c) = [.char c] := if_neg hc
        rw [List.flatMap_cons, hpiece, List.singleton_append, Span.closes, ih h.2, Bool.and_true,
          head?_join_escapePiece]
        have hh := h.1
        cases hj : (Span.join pieces).head? with
        | none =>
          rw [hj] at hh
          exact hh
        | some d =>
          rw [hj] at hh
          by_cases hd : d = '"'
          · have hmark : '&' ≠ kind.mark := by cases kind <;> decide
            simp [hd, hmark]
          · simpa [hd] using hh

theorem Settled.shows_escape (issued : guard.IsIssued) (h : guard.Settled text)
    (hq : ∀ span ∈ guard.spansOf text, span.isStructural = true → '"' ∉ span.text)
    (hc : ∀ kind, kinds kind → Span.IsClosed kind (guard.reveal text)) :
    guard.Shows kinds (guard.spansOf text) (Attribute.escape text) := by
  refine ⟨_, h.escape issued fun span hm hs => hq span ?_ hs, ?_, fun span hm => ?_, fun kind hk =>
    closes_escapePiece (hc kind hk)⟩
  · exact List.mem_filterMap.2 ⟨_, hm, rfl⟩
  · rw [filterMap_escapePiece]
    exact .refl _
  · have hspan : span ∈ guard.spansOf text := by
      rw [spansOf, Span.spans, Pattern.items, ← filterMap_escapePiece]
      exact List.mem_filterMap.2 ⟨_, hm, rfl⟩
    obtain ⟨piece, hpiece, hitem⟩ := List.mem_filterMap.1 hspan
    cases piece with
    | char c => cases hitem
    | item other =>
      cases hitem
      exact Span.isProper_of_mem_pieces hpiece

/-- What a text shows is what it has when it is revealed, if for each kind of span nothing leaves one
open, or nothing ends one. -/
theorem Shows.spans_reveal (h : guard.Shows kinds spans text)
    (hkinds : ∀ kind, kinds kind ∨ ¬ kind.closer <:+: guard.reveal text) :
    (Span.spans (guard.reveal text)).Perm spans := by
  obtain ⟨pieces, hw, hp, hproper, hc⟩ := h
  have hreveal := hw.reveal
  rw [hreveal] at hkinds ⊢
  have hpieces := Span.pieces_join hproper fun kind => (hkinds kind).imp_left (hc kind)
  rwa [Span.spans, Pattern.items, hpieces]

end

end
end Guard
end MailTemplate
