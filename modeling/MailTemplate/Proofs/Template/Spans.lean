import MailTemplate.Template.Span
import MailTemplate.Proofs.Text.Cut

/-! Spans of a text that is put together from parts. A text is taken apart into the pieces that it was
put together from, provided that none of its loose braces begins a span; a loose brace does not, where
the character behind it begins no span of a kind, or where nothing in the text ends one. -/

namespace MailTemplate

/-- The character next to the brace that begins a span of this kind. -/
def SpanKind.mark : SpanKind → Char
  | expression => '{'
  | tag => '%'
  | comment => '#'

theorem SpanKind.opener_eq (kind : SpanKind) : kind.opener = ['{', kind.mark] := by
  cases kind <;> rfl

theorem SpanKind.closer_ne_nil (kind : SpanKind) : kind.closer ≠ [] := by
  cases kind <;> exact List.cons_ne_nil _ _

namespace Span

/-- The spans of a text, from left to right. -/
def spans (text : Text) : List Span := pattern.items text

def join (pieces : List (Piece Span)) : Text := pieces.flatMap pattern.pieceText

@[simp] theorem join_nil : join [] = [] := rfl

@[simp] theorem join_char (c : Char) (pieces : List (Piece Span)) :
    join (.char c :: pieces) = c :: join pieces := rfl

@[simp] theorem join_item (span : Span) (pieces : List (Piece Span)) :
    join (.item span :: pieces) = span.text ++ join pieces := rfl

@[simp] theorem join_append (front back : List (Piece Span)) :
    join (front ++ back) = join front ++ join back := List.flatMap_append

@[simp] theorem join_pieces (text : Text) : join (pattern.pieces text) = text :=
  pattern.flatMap_pieceText_pieces text

@[simp] theorem join_map_char (text : Text) : join (text.map .char) = text := by
  induction text with
  | nil => rfl
  | cons c text ih => rw [List.map_cons, join_char, ih]

/-- Whether no loose brace among the pieces begins a span of the kind, whatever follows them. -/
def closes (kind : SpanKind) : List (Piece Span) → Bool
  | [] => true
  | .item _ :: pieces => closes kind pieces
  | .char c :: pieces =>
    (c != '{' || (join pieces).head?.any (· != kind.mark)) && closes kind pieces

def IsClosed (kind : SpanKind) (text : Text) : Prop := closes kind (pattern.pieces text) = true

instance (kind : SpanKind) (text : Text) : Decidable (IsClosed kind text) :=
  inferInstanceAs (Decidable (closes kind (pattern.pieces text) = true))

/-- A span that is found wherever it stands. -/
def IsProper (span : Span) : Prop := ∀ rest, match? (span.text ++ rest) = some (span, rest)

section
variable {source rest : Text} {span : Span}

theorem match?_eq_some_iff :
    match? source = some (span, rest) ↔
      ∃ after, source = span.kind.opener ++ after ∧
        Text.cut? span.kind.closer after = some (span.body, rest) := by
  simp only [match?, Option.bind_eq_bind, Option.bind_eq_some_iff, Prod.exists,
    SpanKind.match?_eq_some_iff]
  constructor
  · rintro ⟨kind, after, hk, body, last, hb, he⟩
    cases he
    exact ⟨after, hk, hb⟩
  · rintro ⟨after, hs, hb⟩
    exact ⟨span.kind, after, hs, span.body, rest, hb, rfl⟩

/-- A span begins with a brace, and the mark behind it says which kind it is. -/
theorem match?_cons_eq_some_iff {c : Char} :
    match? (c :: source) = some (span, rest) ↔
      c = '{' ∧ ∃ after, source = span.kind.mark :: after ∧
        Text.cut? span.kind.closer after = some (span.body, rest) := by
  rw [match?_eq_some_iff, SpanKind.opener_eq]
  constructor
  · rintro ⟨after, hs, hcut⟩
    obtain ⟨rfl, rfl⟩ := List.cons.inj hs
    exact ⟨rfl, after, rfl, hcut⟩
  · rintro ⟨rfl, after, rfl, hcut⟩
    exact ⟨after, rfl, hcut⟩

theorem match?_eq_none_of_ne {c : Char} (h : c ≠ '{') (rest : Text) : match? (c :: rest) = none :=
  Option.eq_none_iff_forall_ne_some.2 fun _ hm => h (match?_cons_eq_some_iff.1 hm).1

theorem isProper_of_match? (h : match? source = some (span, rest)) : span.IsProper := by
  obtain ⟨after, -, hcut⟩ := match?_eq_some_iff.1 h
  rw [Text.eq_append_of_cut? hcut] at hcut
  intro other
  refine match?_eq_some_iff.2 ⟨span.body ++ span.kind.closer ++ other, ?_, ?_⟩
  · simp only [text, List.append_assoc]
  · exact Text.cut?_append_congr (SpanKind.closer_ne_nil _) hcut other

theorem isProper_of_mem_pieces (h : .item span ∈ pattern.pieces source) : span.IsProper := by
  obtain ⟨part, rest, -, hm⟩ := pattern.match?_of_mem_pieces h
  exact isProper_of_match? hm

theorem match?_eq_none_of_append (h : match? (source ++ rest) = none) : match? source = none := by
  cases hm : match? source with
  | none => rfl
  | some found =>
    obtain ⟨span, after⟩ := found
    have hp := isProper_of_match? hm (after ++ rest)
    rw [Span.exact hm, List.append_assoc, hp] at h
    cases h

end

section
variable {kind : SpanKind} {pieces front back : List (Piece Span)}

theorem closes_append (hf : closes kind front = true) (hb : closes kind back = true) :
    closes kind (front ++ back) = true := by
  induction front with
  | nil => exact hb
  | cons piece front ih =>
    cases piece with
    | item span => exact ih hf
    | char c =>
      rw [closes, Bool.and_eq_true] at hf
      rw [List.cons_append, closes, ih hf.2, Bool.and_true]
      by_cases hc : c = '{'
      · have hh := hf.1
        simp only [hc, bne_self_eq_false, Bool.false_or] at hh ⊢
        cases hj : join front with
        | nil =>
          rw [hj] at hh
          cases hh
        | cons d rest =>
          rw [hj] at hh
          rw [join_append, hj]
          exact hh
      · simp [hc]

theorem closes_of_append (h : closes kind (front ++ back) = true) : closes kind back = true := by
  induction front with
  | nil => exact h
  | cons piece front ih =>
    cases piece with
    | item span => exact ih h
    | char c =>
      rw [List.cons_append, closes, Bool.and_eq_true] at h
      exact ih h.2

theorem closes_map_char {text : Text} (h : '{' ∉ text) : closes kind (text.map .char) = true := by
  induction text with
  | nil => rfl
  | cons c text ih =>
    rw [List.mem_cons, not_or] at h
    have hc : (c != '{') = true := bne_iff_ne.2 fun he => h.1 he.symm
    rw [List.map_cons, closes, hc, ih h.2]
    rfl

/-- Pieces are found again in the text that they make up, if for each kind of span their loose braces
begin none, or nothing ends one. -/
theorem pieces_join (hp : ∀ span, .item span ∈ pieces → span.IsProper)
    (h : ∀ kind, closes kind pieces = true ∨ ¬ kind.closer <:+: join pieces) :
    pattern.pieces (join pieces) = pieces := by
  induction pieces with
  | nil => simp
  | cons piece pieces ih =>
    have hp' : ∀ span, .item span ∈ pieces → span.IsProper := fun span hm =>
      hp span (List.mem_cons_of_mem _ hm)
    cases piece with
    | item span =>
      have hm := hp span List.mem_cons_self (join pieces)
      have h' : ∀ kind, closes kind pieces = true ∨ ¬ kind.closer <:+: join pieces :=
        fun kind => (h kind).imp_right fun hn hi => hn (hi.trans (List.suffix_append _ _).isInfix)
      rw [join_item, pattern.pieces_of_match? hm, ih hp' h']
    | char c =>
      have hm : pattern.match? (c :: join pieces) = none := by
        refine Option.eq_none_iff_forall_ne_some.2 fun ⟨span, rest⟩ hm => ?_
        obtain ⟨hc, after, hj, hcut⟩ := match?_cons_eq_some_iff.1 hm
        rcases h span.kind with hopen | hclose
        · simp [closes, hc, hj] at hopen
        · refine hclose ?_
          rw [join_char, hj, Text.eq_append_of_cut? hcut]
          exact ⟨c :: span.kind.mark :: span.body, rest, by simp⟩
      have h' : ∀ kind, closes kind pieces = true ∨ ¬ kind.closer <:+: join pieces := by
        refine fun kind => (h kind).imp (fun hc => ?_) fun hn hi => hn (hi.trans ?_)
        · rw [closes, Bool.and_eq_true] at hc
          exact hc.2
        · exact (List.suffix_cons c _).isInfix
      rw [join_char, pattern.pieces_cons_of_match?_eq_none hm, ih hp' h']

theorem match?_eq_none_of_pieces {c : Char}
    (h : pattern.pieces (join (.char c :: pieces)) = .char c :: pieces) :
    pattern.match? (c :: join pieces) = none := by
  by_contra hne
  obtain ⟨⟨span, rest⟩, hm⟩ := Option.ne_none_iff_exists'.1 hne
  have hwhole := pattern.pieces_of_match? hm
  rw [← join_char, h] at hwhole
  cases (List.cons.inj hwhole).1

/-- The first pieces of a text are found again in front of any initial part of what follows them. -/
theorem pieces_join_append {part : Text}
    (h : pattern.pieces (join (front ++ back)) = front ++ back) (hpart : part <+: join back) :
    pattern.pieces (join front ++ part) = front ++ pattern.pieces part ∧
      pattern.pieces (join back) = back := by
  induction front with
  | nil => exact ⟨rfl, h⟩
  | cons piece front ih =>
    cases piece with
    | item span =>
      have hspan : span.IsProper := by
        have hm : .item span ∈ pattern.pieces (join (.item span :: front ++ back)) := by
          rw [h]
          exact List.mem_cons_self
        exact isProper_of_mem_pieces hm
      have hwhole : pattern.pieces (join (.item span :: front ++ back)) =
          .item span :: pattern.pieces (join (front ++ back)) :=
        pattern.pieces_of_match? (hspan _)
      obtain ⟨hfront, hback⟩ := ih (List.cons.inj (hwhole.symm.trans h)).2
      have hm : pattern.match? (span.text ++ (join front ++ part)) = some (span, join front ++ part) :=
        hspan _
      refine ⟨?_, hback⟩
      rw [join_item, List.append_assoc, pattern.pieces_of_match? hm, hfront, List.cons_append]
    | char c =>
      have hnone : pattern.match? (c :: join (front ++ back)) = none := match?_eq_none_of_pieces h
      have hwhole : pattern.pieces (join (.char c :: front ++ back)) =
          .char c :: pattern.pieces (join (front ++ back)) :=
        pattern.pieces_cons_of_match?_eq_none hnone
      obtain ⟨hfront, hback⟩ := ih (List.cons.inj (hwhole.symm.trans h)).2
      have hm : pattern.match? (c :: (join front ++ part)) = none := by
        obtain ⟨rest, hrest⟩ := hpart
        have hlong : match? (c :: (join front ++ part) ++ rest) = none := by
          rw [List.cons_append, List.append_assoc, hrest, ← join_append]
          exact hnone
        exact match?_eq_none_of_append hlong
      refine ⟨?_, hback⟩
      rw [join_char, List.cons_append, pattern.pieces_cons_of_match?_eq_none hm, hfront,
        List.cons_append]

theorem pieces_join_tail {piece : Piece Span}
    (h : pattern.pieces (join (piece :: pieces)) = piece :: pieces) :
    pattern.pieces (join pieces) = pieces := by
  have hh : pattern.pieces (join ([piece] ++ pieces)) = [piece] ++ pieces := h
  exact (pieces_join_append hh List.nil_prefix).2

end
end Span
end MailTemplate
