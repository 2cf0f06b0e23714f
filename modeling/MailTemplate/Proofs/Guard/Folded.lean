import MailTemplate.Proofs.Guard.Written

/-! Placeholders in lower case. A text made of placeholders, as they are or in lower case, loses all its
private characters when it is revealed, unless a placeholder in it has been changed; whatever else
begins with the opening character stays. -/

namespace MailTemplate
namespace Guard

def IsTrace (guard : Guard) (word : Text) : Prop :=
  guard.IsPlaceholder word ∨ ∃ original, guard.IsPlaceholder original ∧ word = Text.lower original

def IsClean (text : Text) : Prop := opener ∉ text ∧ closer ∉ text

instance (text : Text) : Decidable (IsClean text) :=
  inferInstanceAs (Decidable (opener ∉ text ∧ closer ∉ text))

def KnowsClean (guard : Guard) : Prop :=
  ∀ (id : Nat) (span : Span), guard.hidden[id]? = some span → IsClean span.text

section
variable {guard : Guard} {text rest : Text}

theorem isWord_of_isTrace (issued : guard.IsIssued) : ∀ word, guard.IsTrace word → IsWord word := by
  rintro word (h | ⟨original, h, rfl⟩)
  · exact isWord_of_isPlaceholder issued word h
  · exact (isWord_of_isPlaceholder issued original h).lower

theorem isTrace_lower : ∀ word, guard.IsTrace word → guard.IsTrace (Text.lower word) := by
  rintro word (h | ⟨original, h, rfl⟩)
  · exact .inr ⟨word, h, rfl⟩
  · exact .inr ⟨original, h, Text.lower_lower original⟩

theorem IsClean.append (h : IsClean text) (hr : IsClean rest) : IsClean (text ++ rest) := by
  simp only [IsClean, List.mem_append, not_or] at h hr ⊢
  exact ⟨⟨h.1, hr.1⟩, h.2, hr.2⟩

theorem IsClean.sound {words : Text → Prop} (h : IsClean text) : Sound words text :=
  sound_of_notMem h.1 h.2

theorem opener_ne_closer : opener ≠ closer := by decide

theorem lower_lead (guard : Guard) :
    Text.lower guard.lead = opener :: "mf:".toList ++ Text.lower guard.nonce ++ [':'] := by
  have hmf : Text.lower (opener :: "mf:".toList) = opener :: "mf:".toList := by decide
  have hcolon : Text.lower [':'] = [':'] := by decide
  rw [lead, Text.lower_append, Text.lower_append, hmf, hcolon]

theorem lower_ofNat (id : Nat) : Text.lower (Text.ofNat id) = Text.ofNat id := by
  have hdigit : ∀ c ∈ Text.ofNat id, c.toLower = c := fun c hc =>
    Text.toLower_of_isDigit (isDigit_of_mem_ofNat hc)
  exact (List.map_congr_left hdigit).trans (List.map_id _)

theorem lower_placeholder (guard : Guard) (id : Nat) :
    Text.lower (guard.placeholder id) = Text.lower guard.lead ++ Text.ofNat id ++ [closer] := by
  have hcloser : Text.lower [closer] = [closer] := by decide
  rw [placeholder, Text.lower_append, Text.lower_append, lower_ofNat, hcloser]

theorem Sound.isClean_reveal (known : guard.KnowsClean) (h : Sound guard.IsPlaceholder text) :
    IsClean (guard.reveal text) := by
  induction h with
  | nil =>
    rw [reveal_nil]
    exact ⟨List.not_mem_nil, List.not_mem_nil⟩
  | @char c text ho hc _ ih =>
    rw [reveal_cons ho]
    simp only [IsClean, List.mem_cons, not_or]
    exact ⟨⟨fun he => ho he.symm, ih.1⟩, fun he => hc he.symm, ih.2⟩
  | @word word text hword _ ih =>
    obtain ⟨id, hid, rfl⟩ := hword
    have hspan : guard.hidden[id]? = some guard.hidden[id] := Array.getElem?_eq_getElem hid
    rw [reveal_placeholder hspan]
    exact (known id _ hspan).append ih

theorem opener_only_first (issued : guard.IsIssued) {source after front back : Text}
    {reference : Reference guard} (hm : Reference.match? guard source = some (reference, after))
    (h : reference.text = front ++ opener :: back) : front = [] := by
  cases front with
  | nil => rfl
  | cons c front =>
    have htail : guard.leadTail ++ reference.digits ++ [closer] = front ++ opener :: back := by
      rw [Reference.text, lead_eq] at h
      exact (List.cons.inj h).2
    have hmem : opener ∈ guard.leadTail ++ reference.digits ++ [closer] := by
      rw [htail]
      exact List.mem_append_right _ List.mem_cons_self
    have hdigits : opener ∉ reference.digits := fun hd =>
      absurd ((digits_of_match? hm).2 _ hd) (by decide)
    simp [opener_notMem_leadTail issued, hdigits, opener_ne_closer] at hmem

theorem opener_mem_reveal (issued : guard.IsIssued)
    (h : opener :: rest <:+ text) (hn : Reference.match? guard (opener :: rest) = none) :
    opener ∈ guard.reveal text := by
  induction hl : text.length using Nat.strongRecOn generalizing text with
  | _ n ih =>
    subst hl
    cases hm : Reference.match? guard text with
    | some found =>
      obtain ⟨reference, after⟩ := found
      have hpieces : (Reference.pattern guard).pieces text =
          .item reference :: (Reference.pattern guard).pieces after :=
        (Reference.pattern guard).pieces_of_match? hm
      have htext := Reference.exact hm
      have hlater : opener :: rest <:+ after := by
        obtain ⟨front, hfront⟩ := h
        rw [htext] at hfront
        rcases List.append_eq_append_iff.1 hfront with ⟨part, hpart, hrest⟩ | ⟨part, -, hafter⟩
        · cases part with
          | nil => exact hrest ▸ List.suffix_rfl
          | cons c part =>
            -- the character would stand inside the placeholder, so it is the one that begins it
            obtain rfl : opener = c := (List.cons.inj hrest).1
            have hnil : front = [] := opener_only_first issued hm hpart
            rw [hnil, List.nil_append] at hpart
            rw [hrest, ← hpart, ← htext, hm] at hn
            cases hn
        · exact ⟨part, hafter.symm⟩
      have hin : opener ∈ guard.reveal after :=
        ih _ ((Reference.pattern guard).length_lt_of_match? hm) hlater rfl
      rw [reveal, Pattern.replace, hpieces, List.flatMap_cons]
      exact List.mem_append_right _ hin
    | none =>
      cases text with
      | nil => simp at h
      | cons c text =>
        have hpieces : (Reference.pattern guard).pieces (c :: text) =
            .char c :: (Reference.pattern guard).pieces text :=
          (Reference.pattern guard).pieces_cons_of_match?_eq_none hm
        rw [reveal, Pattern.replace, hpieces, List.flatMap_cons]
        rcases List.suffix_cons_iff.1 h with he | hs
        · rw [← (List.cons.inj he).1]
          exact List.mem_append_left _ List.mem_cons_self
        · exact List.mem_append_right _ (ih _ (Nat.lt_succ_self _) hs rfl)

/-- The beginning of a placeholder that was cut behind its first colon, as it is written again. -/
def stub : Text := opener :: "mf: ".toList

theorem opener_mem_reveal_of_stub (issued : guard.IsIssued) (h : stub <:+: text) :
    opener ∈ guard.reveal text := by
  obtain ⟨front, back, rfl⟩ := h
  have hsuffix : opener :: ("mf: ".toList ++ back) <:+ front ++ stub ++ back := by
    rw [List.append_assoc]
    exact List.suffix_append front _
  refine opener_mem_reveal issued hsuffix (match?_eq_none fun hp => ?_)
  have hmf : "mf: ".toList = ['m', 'f', ':', ' '] := by decide
  have hmf' : "mf:".toList = ['m', 'f', ':'] := by decide
  -- where the space stands, the lead has the first character of the nonce, or the colon behind it
  rw [lead, hmf, hmf'] at hp
  simp only [List.cons_append, List.nil_append, List.cons_prefix_cons, true_and] at hp
  cases hnonce : guard.nonce with
  | nil =>
    rw [hnonce] at hp
    exact absurd (List.cons_prefix_cons.1 hp).1 (by decide)
  | cons c nonce =>
    rw [hnonce] at hp
    obtain rfl := (List.cons_prefix_cons.1 hp).1
    have hspace := issued ' ' (by rw [hnonce]; exact List.mem_cons_self)
    revert hspace
    decide

theorem match?_lower_lead (hn : Text.lower guard.nonce ≠ guard.nonce) (rest : Text) :
    Reference.match? guard (Text.lower guard.lead ++ rest) = none := by
  refine match?_eq_none fun hp => hn ?_
  have hself : Text.lower guard.lead <+: Text.lower guard.lead ++ rest := List.prefix_append _ _
  have hlead : guard.lead = Text.lower guard.lead := by
    have hle : guard.lead.length ≤ (Text.lower guard.lead).length := by rw [Text.length_lower]
    have hprefix := List.prefix_of_prefix_length_le hp hself hle
    exact hprefix.eq_of_length (Text.length_lower _).symm
  rw [lower_lead, lead] at hlead
  have hnonce := (List.append_inj' hlead rfl).1
  exact (List.append_cancel_left hnonce).symm

theorem Sound.of_not_infix (h : Sound guard.IsTrace text)
    (hn : ¬ Text.lower guard.lead <:+: text) : Sound guard.IsPlaceholder text := by
  induction h with
  | nil => exact .nil
  | @char c text ho hc _ ih =>
    exact .char ho hc (ih fun hi => hn (hi.trans (List.suffix_cons c _).isInfix))
  | @word word text hword _ ih =>
    have hlater := ih fun hi => hn (hi.trans (List.suffix_append word _).isInfix)
    rcases hword with hword | ⟨original, ⟨id, -, rfl⟩, rfl⟩
    · exact .word hword hlater
    · refine absurd ?_ hn
      rw [lower_placeholder, List.append_assoc, List.append_assoc]
      exact (List.prefix_append _ _).isInfix

theorem Sound.of_lower_nonce (h : Sound guard.IsTrace text)
    (hn : Text.lower guard.nonce = guard.nonce) : Sound guard.IsPlaceholder text := by
  refine h.mono ?_
  rintro word (hword | ⟨original, ⟨id, hid, rfl⟩, rfl⟩)
  · exact hword
  · refine ⟨id, hid, ?_⟩
    rw [lower_placeholder, lower_lead, hn]
    rfl

/-- A text of placeholders, as they are or in lower case, is revealed without private characters
exactly if lower case has changed none of them. -/
theorem Sound.isClean_reveal_iff (issued : guard.IsIssued) (known : guard.KnowsClean)
    (h : Sound guard.IsTrace text) :
    IsClean (guard.reveal text) ↔
      (Text.lower guard.nonce = guard.nonce ∨ ¬ Text.lower guard.lead <:+: text) := by
  constructor
  · intro hclean
    by_cases hn : Text.lower guard.nonce = guard.nonce
    · exact .inl hn
    · refine .inr fun ⟨front, back, hwhole⟩ => hclean.1 ?_
      have hnone := match?_lower_lead hn back
      rw [lower_lead] at hwhole hnone
      refine opener_mem_reveal issued ⟨front, ?_⟩ hnone
      rw [← hwhole, List.append_assoc]
      rfl
  · rintro (hn | hn)
    · exact (h.of_lower_nonce hn).isClean_reveal known
    · exact (h.of_not_infix hn).isClean_reveal known

end
end Guard
end MailTemplate
