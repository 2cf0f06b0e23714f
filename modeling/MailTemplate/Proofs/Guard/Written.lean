import MailTemplate.Proofs.Guard.Session
import MailTemplate.Proofs.Guard.Words
import MailTemplate.Proofs.Template.Spans

/-! Texts in which a guard has hidden spans, beside the pieces of the text that they were. Cutting such
a text between its placeholders cuts the pieces at the same place, unless the cut goes through a tag of
the layout, which stands in the text as it is. -/

namespace MailTemplate
namespace Guard

def IsPlaceholder (guard : Guard) (word : Text) : Prop :=
  ∃ id < guard.hidden.size, word = guard.placeholder id

/-- A text as the guard writes the pieces: characters and tags of the layout as they are, every other
span as a placeholder. -/
inductive Written (guard : Guard) : List (Piece Span) → Text → Prop
  | nil : Written guard [] []
  | char {c : Char} {pieces : List (Piece Span)} {text : Text} : c ≠ opener → c ≠ closer →
      Written guard pieces text → Written guard (.char c :: pieces) (c :: text)
  | layout {span : Span} {pieces : List (Piece Span)} {text : Text} : span.isStructural = true →
      opener ∉ span.text → closer ∉ span.text → Written guard pieces text →
        Written guard (.item span :: pieces) (span.text ++ text)
  | hidden {id : Nat} {span : Span} {pieces : List (Piece Span)} {text : Text} :
      guard.hidden[id]? = some span → Written guard pieces text →
        Written guard (.item span :: pieces) (guard.placeholder id ++ text)

def Settled (guard : Guard) (text : Text) : Prop :=
  Written guard (Span.pattern.pieces (guard.reveal text)) text

section
variable {guard : Guard} {pieces : List (Piece Span)} {text rest : Text}

theorem isWord_placeholder (issued : guard.IsIssued) (id : Nat) :
    IsWord (guard.placeholder id) := by
  refine ⟨guard.leadTail ++ Text.ofNat id, ?_, fun c hc => ?_⟩
  · simp [placeholder, lead_eq]
  · rcases List.mem_append.1 hc with hc | hc
    · have hmf : "mf:".toList = ['m', 'f', ':'] := by decide
      simp only [leadTail, hmf, List.mem_append, List.mem_cons, List.not_mem_nil, or_false] at hc
      rcases hc with ((rfl | rfl | rfl) | hc) | rfl
      · decide
      · decide
      · decide
      · rw [isInner, issued c hc, Bool.true_or]
      · decide
    · have hd := isDigit_of_mem_ofNat hc
      simp [isInner, isNonceChar, Char.isAlphanum, hd]

theorem isWord_of_isPlaceholder (issued : guard.IsIssued) :
    ∀ word, guard.IsPlaceholder word → IsWord word := by
  rintro word ⟨id, -, rfl⟩
  exact isWord_placeholder issued id

theorem reveal_cons {c : Char} (h : c ≠ opener) (text : Text) :
    guard.reveal (c :: text) = c :: guard.reveal text := by
  have hl : ¬ guard.lead <+: c :: text := fun hl => h (List.cons_prefix_cons.1 hl).1.symm
  have hm : (Reference.pattern guard).match? (c :: text) = none := match?_eq_none hl
  rw [reveal, Pattern.replace, (Reference.pattern guard).pieces_cons_of_match?_eq_none hm]
  rfl

theorem reveal_append_of_notMem (h : opener ∉ text) (rest : Text) :
    guard.reveal (text ++ rest) = text ++ guard.reveal rest := by
  induction text with
  | nil => rfl
  | cons c text ih =>
    rw [List.mem_cons, not_or] at h
    rw [List.cons_append, reveal_cons (fun he => h.1 he.symm), ih h.2, List.cons_append]

@[simp] theorem reveal_nil : guard.reveal [] = [] := by simp [reveal, Pattern.replace]

theorem reveal_of_notMem (h : opener ∉ text) : guard.reveal text = text := by
  have hr : guard.reveal (text ++ []) = text ++ guard.reveal [] := reveal_append_of_notMem h []
  rwa [List.append_nil, reveal_nil, List.append_nil] at hr

theorem reveal_placeholder {id : Nat} {span : Span} (h : guard.hidden[id]? = some span)
    (rest : Text) : guard.reveal (guard.placeholder id ++ rest) = span.text ++ guard.reveal rest := by
  have hm : (Reference.pattern guard).match? (guard.placeholder id ++ rest) =
      some (⟨Text.ofNat id⟩, rest) := match?_placeholder id rest
  have hspan : (⟨Text.ofNat id⟩ : Reference guard).meaning = span.text := by
    rw [meaning_ofNat, spanText, h, Option.elim_some]
  rw [reveal, Pattern.replace, (Reference.pattern guard).pieces_of_match? hm, List.flatMap_cons,
    ← hspan]
  rfl

theorem Written.reveal_append (h : Written guard pieces text) (rest : Text) :
    guard.reveal (text ++ rest) = Span.join pieces ++ guard.reveal rest := by
  induction h with
  | nil => rfl
  | char ho _ _ ih => rw [List.cons_append, reveal_cons ho, ih, Span.join_char, List.cons_append]
  | layout _ ho _ _ ih =>
    rw [List.append_assoc, reveal_append_of_notMem ho, ih, Span.join_item, List.append_assoc]
  | hidden hspan _ ih =>
    rw [List.append_assoc, reveal_placeholder hspan, ih, Span.join_item, List.append_assoc]

theorem Written.reveal (h : Written guard pieces text) :
    guard.reveal text = Span.join pieces := by
  have hr := h.reveal_append []
  rwa [reveal_nil, List.append_nil, List.append_nil] at hr

theorem Written.append {later : List (Piece Span)} (h : Written guard pieces text)
    (hr : Written guard later rest) : Written guard (pieces ++ later) (text ++ rest) := by
  induction h with
  | nil => exact hr
  | char ho hc _ ih => exact .char ho hc ih
  | layout hs ho hc _ ih =>
    rw [List.append_assoc]
    exact .layout hs ho hc ih
  | hidden hspan _ ih =>
    rw [List.append_assoc]
    exact .hidden hspan ih

theorem Written.sound (h : Written guard pieces text) : Sound guard.IsPlaceholder text := by
  induction h with
  | nil => exact .nil
  | char ho hc _ ih => exact .char ho hc ih
  | layout _ ho hc _ ih => exact (sound_of_notMem ho hc).append ih
  | @hidden id span _ _ hspan _ ih =>
    have hid : id < guard.hidden.size := (Array.getElem?_eq_some_iff.1 hspan).1
    exact .word ⟨id, hid, rfl⟩ ih

theorem written_map_char (ho : opener ∉ text) (hc : closer ∉ text) :
    Written guard (text.map .char) text := by
  induction text with
  | nil => exact .nil
  | cons c text ih =>
    rw [List.mem_cons, not_or] at ho hc
    exact .char (fun he => ho.1 he.symm) (fun he => hc.1 he.symm) (ih ho.2 hc.2)

theorem written_number {first : Nat} {later : List Span} (ho : opener ∉ Span.join pieces)
    (hc : closer ∉ Span.join pieces)
    (h : guard.hidden.toList.drop first = secrets pieces ++ later) :
    Written guard pieces (guard.write (number first pieces)) := by
  induction pieces generalizing first with
  | nil => exact .nil
  | cons piece pieces ih =>
    cases piece with
    | char c =>
      rw [Span.join_char, List.mem_cons, not_or] at ho hc
      exact .char (fun he => ho.1 he.symm) (fun he => hc.1 he.symm) (ih ho.2 hc.2 h)
    | item span =>
      rw [Span.join_item, List.mem_append, not_or] at ho hc
      by_cases hs : span.isStructural
      · rw [secrets_structural hs] at h
        simp only [number, hs, if_true, write_append, write_map_char]
        exact .layout hs ho.1 hc.1 (ih ho.2 hc.2 h)
      · rw [secrets_item hs, List.cons_append] at h
        have hlt : first < guard.hidden.toList.length := by
          have hl := congrArg List.length h
          simp only [List.length_drop, List.length_cons] at hl
          omega
        rw [List.drop_eq_getElem_cons hlt] at h
        obtain ⟨hspan, hrest⟩ := List.cons.inj h
        have hsome : guard.hidden[first]? = some span := by
          rw [← hspan, ← Array.getElem?_toList, List.getElem?_eq_getElem hlt]
        simp only [number, hs, Bool.false_eq_true, if_false, write_item]
        exact .hidden hsome (ih ho.2 hc.2 hrest)

theorem written_hide {nonce source : Text} (ho : opener ∉ source) (hc : closer ∉ source) :
    Written ((fresh nonce).hide source).1 (Span.pattern.pieces source)
      ((fresh nonce).hide source).2 := by
  have htable : ((fresh nonce).remember (secretsOf source)).hidden.toList.drop 0 =
      secrets (Span.pattern.pieces source) ++ [] := by
    rw [toList_remember]
    simp [fresh, secretsOf]
  rw [hide_eq]
  refine written_number ?_ ?_ htable
  · rwa [Span.join_pieces]
  · rwa [Span.join_pieces]

theorem Sound.of_placeholder {front back : Text} {id : Nat} (hs : Sound guard.IsPlaceholder front)
    (hn : front ≠ []) (h : front ++ back = guard.placeholder id ++ rest) :
    ∃ text, front = guard.placeholder id ++ text ∧ Sound guard.IsPlaceholder text ∧
      rest = text ++ back := by
  cases hs with
  | nil => exact absurd rfl hn
  | char ho _ _ => exact absurd (List.cons.inj h).1 ho
  | @word word text hword ht =>
    obtain ⟨other, -, rfl⟩ := hword
    have hother : Reference.match? guard (guard.placeholder other ++ (text ++ back)) = _ :=
      match?_placeholder other _
    rw [← List.append_assoc, h, match?_placeholder] at hother
    obtain ⟨hdigits, hrest⟩ := Prod.mk.inj (Option.some.inj hother)
    have hid : Text.ofNat id = Text.ofNat other := congrArg Reference.digits hdigits
    refine ⟨text, ?_, ht, hrest⟩
    rw [placeholder, placeholder, hid]

/-- A written text that is cut between placeholders is cut between pieces, or inside a tag of the
layout. -/
theorem Written.split {front back : Text} (issued : guard.IsIssued)
    (h : Written guard pieces (front ++ back)) (hs : Sound guard.IsPlaceholder front) :
    (∃ first later, pieces = first ++ later ∧ Written guard first front ∧
        Written guard later back) ∨
      ∃ first span later text part rest, pieces = first ++ .item span :: later ∧
        span.isStructural = true ∧ opener ∉ part ∧ front = text ++ part ∧
          span.text = part ++ rest ∧ part ≠ [] ∧ rest ≠ [] ∧ Written guard first text := by
  have hw := isWord_of_isPlaceholder issued
  generalize hwhole : front ++ back = whole at h
  induction h generalizing front with
  | nil =>
    obtain ⟨rfl, rfl⟩ := List.append_eq_nil_iff.1 hwhole
    exact .inl ⟨[], [], rfl, .nil, .nil⟩
  | @char c pieces text ho hc ht ih =>
    cases front with
    | nil =>
      rw [List.nil_append] at hwhole
      exact .inl ⟨[], _, rfl, .nil, hwhole ▸ .char ho hc ht⟩
    | cons d front =>
      obtain ⟨rfl, hrest⟩ := List.cons.inj hwhole
      rcases ih (hs.tail hw ho) hrest with ⟨first, later, rfl, hf, hl⟩ |
        ⟨first, span, later, before, part, after, rfl, hspan, hno, rfl, htext, hp, ha, hf⟩
      · exact .inl ⟨.char d :: first, later, rfl, .char ho hc hf, hl⟩
      · exact .inr ⟨.char d :: first, span, later, d :: before, part, after, rfl, hspan, hno, rfl,
          htext, hp, ha, .char ho hc hf⟩
  | @layout span pieces text hspan ho hc ht ih =>
    rcases List.append_eq_append_iff.1 hwhole with ⟨after, htext, hback⟩ | ⟨later, hfront, htext⟩
    · by_cases hf : front = []
      · subst hf
        rw [List.nil_append] at hwhole
        exact .inl ⟨[], _, rfl, .nil, hwhole ▸ .layout hspan ho hc ht⟩
      · by_cases ha : after = []
        · subst ha
          rw [List.append_nil] at htext
          rw [List.nil_append] at hback
          have hfront : Written guard [.item span] (span.text ++ []) := .layout hspan ho hc .nil
          rw [List.append_nil, htext] at hfront
          exact .inl ⟨[.item span], pieces, rfl, hfront, hback ▸ ht⟩
        · have hno : opener ∉ front := by
            rw [htext, List.mem_append, not_or] at ho
            exact ho.1
          exact .inr ⟨[], span, pieces, [], front, after, rfl, hspan, hno, rfl, htext, hf, ha, .nil⟩
    · rw [hfront] at hs
      rcases ih (hs.of_append hw ho) htext.symm with ⟨first, later, rfl, hf, hl⟩ |
        ⟨first, other, rest, before, part, after, rfl, hother, hno, rfl, hcut, hp, ha, hf⟩
      · exact .inl ⟨.item span :: first, later, rfl, hfront ▸ .layout hspan ho hc hf, hl⟩
      · refine .inr ⟨.item span :: first, other, rest, span.text ++ before, part, after, rfl, hother,
          hno, ?_, hcut, hp, ha, .layout hspan ho hc hf⟩
        rw [hfront, List.append_assoc]
  | @hidden id span pieces text hspan ht ih =>
    by_cases hf : front = []
    · subst hf
      rw [List.nil_append] at hwhole
      exact .inl ⟨[], _, rfl, .nil, hwhole ▸ .hidden hspan ht⟩
    · obtain ⟨later, rfl, hlater, htext⟩ := hs.of_placeholder hf hwhole
      rcases ih hlater htext.symm with ⟨first, more, rfl, hf, hl⟩ |
        ⟨first, other, rest, before, part, after, rfl, hother, hno, rfl, hcut, hp, ha, hf⟩
      · exact .inl ⟨.item span :: first, more, rfl, .hidden hspan hf, hl⟩
      · refine .inr ⟨.item span :: first, other, rest, guard.placeholder id ++ before, part, after,
          rfl, hother, hno, ?_, hcut, hp, ha, .hidden hspan hf⟩
        rw [List.append_assoc]

theorem kind_of_isStructural {span : Span} (h : span.isStructural = true) : span.kind = .tag := by
  have hempty : ([] : Text) ∉ ["block".toList, "endblock".toList, "extends".toList] := by decide
  unfold Span.isStructural Span.keyword at h
  split at h
  · assumption
  · assumption
  · exact absurd (List.contains_iff_mem.1 h) hempty

theorem not_isClosed_of_cut {first later : List (Piece Span)} {span : Span} {part : Text}
    (h : Span.pattern.pieces (Span.join (first ++ .item span :: later)) =
      first ++ .item span :: later) (hspan : span.isStructural = true)
    (htext : span.text = part ++ rest) (hp : part ≠ []) (hr : rest ≠ []) :
    ¬ Span.IsClosed .tag (Span.join first ++ part) := by
  have hpart : part <+: Span.join (.item span :: later) := by
    rw [Span.join_item, htext, List.append_assoc]
    exact List.prefix_append _ _
  have hproper : span.IsProper := by
    have hm : .item span ∈ Span.pattern.pieces (Span.join (first ++ .item span :: later)) := by
      rw [h]
      exact List.mem_append_right _ List.mem_cons_self
    exact Span.isProper_of_mem_pieces hm
  have hopen : span.text = '{' :: '%' :: (span.body ++ span.kind.closer) := by
    rw [Span.text, kind_of_isStructural hspan]
    rfl
  have hnone : Span.match? part = none := by
    by_contra hne
    obtain ⟨⟨other, after⟩, hm⟩ := Option.ne_none_iff_exists'.1 hne
    have hlong := Span.isProper_of_match? hm (after ++ rest)
    rw [← List.append_assoc, ← Span.exact hm, ← htext] at hlong
    have hwhole := hproper []
    rw [List.append_nil, hlong] at hwhole
    exact hr (List.append_eq_nil_iff.1 (Prod.mk.inj (Option.some.inj hwhole)).2).2
  rw [Span.IsClosed, (Span.pieces_join_append h hpart).1]
  intro hclosed
  have hc := Span.closes_of_append hclosed
  obtain ⟨c, part, rfl⟩ := List.exists_cons_of_ne_nil hp
  obtain ⟨rfl, htail⟩ := List.cons.inj (hopen.symm.trans htext)
  rw [Span.pattern.pieces_cons_of_match?_eq_none hnone, Span.closes, Span.join_pieces] at hc
  cases part with
  | nil => simp at hc
  | cons d part =>
    obtain rfl : '%' = d := (List.cons.inj htail).1
    simp [SpanKind.mark] at hc

end
end Guard
end MailTemplate
