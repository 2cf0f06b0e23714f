import MailTemplate.Proofs.Markup.Rereading

/-! Markup that breaks off. A fault is always in the first construct that cannot be ended: what stands
in front of it is read whether the construct follows or the text ends there. -/

namespace MailTemplate
namespace Token

/-- The tokens of a text up to some place: what stands in front of that place is read, with the rest
of the text behind it. -/
inductive Scans : Text → List Token → Text → Prop
  | done {source : Text} : Scans source [] source
  | next {source middle rest : Text} {token : Token} {tokens : List Token} : source ≠ [] →
      scan source = .ok (token, middle) → Scans middle tokens rest →
        Scans source (token :: tokens) rest

section
variable {source rest : Text} {token : Token}

theorem ofText_eq_text_iff (h : scan source = .ok (token, rest)) :
    Lead.ofText source = .text ↔ ∃ content, token = .leaf (.text content) := by
  constructor
  · intro hl
    unfold scan at h
    rw [hl] at h
    cases h
    exact ⟨_, rfl⟩
  · rintro ⟨content, rfl⟩
    by_contra hl
    unfold scan at h
    split at h
    · split at h <;> cases h
    · split at h <;> cases h
    · unfold stopTag at h
      split at h <;> cases h
    · unfold startTag at h
      split at h
      · cases h
      · unfold ofStart at h
        split at h
        · cases h
        · split at h <;> cases h
    · next htext => exact hl htext

theorem ofText_plainText (source : Text) :
    (plainText source).2 = [] ∨ Lead.ofText (plainText source).2 ≠ .text := by
  induction source with
  | nil => exact .inl rfl
  | cons c source ih =>
    by_cases hl : Lead.ofText (c :: source) = .text
    · simpa only [plainText, hl, if_true] using ih
    · simp only [plainText, hl, if_false]
      exact .inr hl

theorem ofText_rest_ne_text {content : Text} (h : scan source = .ok (.leaf (.text content), rest))
    (hr : rest ≠ []) : Lead.ofText rest ≠ .text := by
  have hl := (ofText_eq_text_iff h).2 ⟨content, rfl⟩
  unfold scan at h
  rw [hl] at h
  cases h
  exact (ofText_plainText source).resolve_left hr

/-- What has been read up to some place is read of the text that ends there. -/
theorem Scans.exists_front {tokens : List Token} (h : Scans source tokens rest) :
    ∃ front, source = front ++ rest ∧ Scans front tokens [] := by
  induction h with
  | done => exact ⟨[], rfl, .done⟩
  | @next source middle rest token tokens hs hscan hmiddle ih =>
    obtain ⟨later, rfl, hlater⟩ := ih
    obtain ⟨front, hn, rfl, hread⟩ := exists_scan hs hscan
    refine ⟨front ++ later, (List.append_assoc _ _ _).symm, .next ?_ (hread later ?_ ?_) hlater⟩
    · exact List.append_ne_nil_of_left_ne_nil hn _
    · exact fun he => (List.append_eq_nil_iff.1 he).1
    · -- the next token is the same in both texts, so it is plain text in neither
      rintro content rfl
      cases hlater with
      | done => exact .inl rfl
      | next hl hfirst _ =>
        cases hmiddle with
        | next hm hsecond _ =>
          have hmarkup := mt (ofText_eq_text_iff hsecond).2 (ofText_rest_ne_text hscan hm)
          exact .inr (mt (ofText_eq_text_iff hfirst).1 hmarkup)

theorem Scans.all_eq {tokens : List Token} (h : Scans source tokens []) : all source = .ok tokens := by
  generalize hr : ([] : Text) = rest at h
  induction h with
  | done =>
    subst hr
    rw [all]
  | next hs hscan _ ih =>
    rw [all_of_scan hs hscan, ih hr]
    rfl

theorem scans_of_all_eq_error {fault : Fault} (h : all source = .error (fault, rest)) :
    rest ≠ [] ∧ scan rest = .error fault ∧ ∃ tokens, Scans source tokens rest := by
  fun_induction all source with
  | case1 => cases h
  | case2 c source found hscan =>
    cases h
    exact ⟨List.cons_ne_nil _ _, hscan, [], .done⟩
  | case3 c source token middle hscan ih =>
    cases hm : all middle with
    | ok tokens =>
      rw [hm] at h
      cases h
    | error cause =>
      rw [hm] at h
      cases h
      obtain ⟨hn, hfault, tokens, htokens⟩ := ih hm
      exact ⟨hn, hfault, token :: tokens, .next (List.cons_ne_nil _ _) hscan htokens⟩

theorem prefix_of_scan_eq_tag (h : scan source = .error .tag) : ['<'] <+: source := by
  cases hl : Lead.ofText source with
  | comment =>
    obtain ⟨inner, rfl⟩ := Lead.ofText_eq_comment_iff.1 hl
    exact List.cons_prefix_cons.2 ⟨rfl, List.nil_prefix⟩
  | declaration =>
    rcases Lead.ofText_eq_declaration_iff.1 hl with ⟨inner, rfl⟩ | ⟨inner, rfl, -⟩ <;>
      exact List.cons_prefix_cons.2 ⟨rfl, List.nil_prefix⟩
  | stop =>
    obtain ⟨c, inner, rfl, -⟩ := Lead.ofText_eq_stop_iff.1 hl
    exact List.cons_prefix_cons.2 ⟨rfl, List.nil_prefix⟩
  | start =>
    obtain ⟨c, inner, rfl, -⟩ := Lead.ofText_eq_start_iff.1 hl
    exact List.cons_prefix_cons.2 ⟨rfl, List.nil_prefix⟩
  | text =>
    unfold scan at h
    rw [hl] at h
    cases h

theorem scan_eq_comment_iff : scan source = .error .comment ↔
    ∃ inner, source = "<!--".toList ++ inner ∧ ¬ "-->".toList <:+: inner := by
  constructor
  · intro h
    unfold scan at h
    split at h
    · next hl =>
      obtain ⟨inner, rfl⟩ := Lead.ofText_eq_comment_iff.1 hl
      split at h
      · next hcut => exact ⟨inner, rfl, (Text.cut?_eq_none_iff (by decide)).1 hcut⟩
      · cases h
    · split at h <;> cases h
    · unfold stopTag at h
      split at h <;> cases h
    · unfold startTag at h
      split at h <;> cases h
    · cases h
  · rintro ⟨inner, rfl, hn⟩
    have hcut := (Text.cut?_eq_none_iff (by decide)).2 hn
    unfold scan
    rw [Lead.ofText_eq_comment_iff.2 ⟨inner, rfl⟩]
    have hdrop : ("<!--".toList ++ inner).drop 4 = inner := rfl
    simp only [hdrop, hcut]

end
end Token

namespace Document

theorem parse_eq_error {source : Text} {cause : MarkupError} (h : parse source = .error cause) :
    ∃ fault rest, Token.all source = .error (fault, rest) ∧
      (fault = .tag ∧ cause = .unterminatedTag (Text.offset source rest) ∨
        fault = .comment ∧ cause = .unterminatedComment (Text.offset source rest)) := by
  unfold parse at h
  split at h
  · cases h
  · next rest hall =>
    cases h
    exact ⟨_, rest, hall, .inl ⟨rfl, rfl⟩⟩
  · next rest hall =>
    cases h
    exact ⟨_, rest, hall, .inr ⟨rfl, rfl⟩⟩

/-- Where a text cannot be read, the position is that of a construct that is not ended: a tag begins
there, or a comment without an end. What stands in front of it is read with that construct behind it
as it is read alone, so nothing before the construct is at fault. -/
theorem parse_before_fault {source : Text} {cause : MarkupError} (h : parse source = .error cause) :
    ∃ before rest tokens, source = before ++ rest ∧ Token.Scans source tokens rest ∧
      parse before = .ok (ofForest (.ofTokens tokens)) ∧
        (cause = .unterminatedTag (Text.byteSize before) ∧ ['<'] <+: rest ∧
            Token.scan rest = .error .tag ∨
          cause = .unterminatedComment (Text.byteSize before) ∧
            ∃ inner, rest = "<!--".toList ++ inner ∧ ¬ "-->".toList <:+: inner) := by
  obtain ⟨fault, rest, hall, hcause⟩ := parse_eq_error h
  obtain ⟨-, hfault, tokens, htokens⟩ := Token.scans_of_all_eq_error hall
  obtain ⟨before, rfl, hbefore⟩ := htokens.exists_front
  rw [Text.offset_append] at hcause
  have hread := parse_eq_ok_iff.2 ⟨tokens, hbefore.all_eq, rfl⟩
  refine ⟨before, rest, tokens, rfl, htokens, hread, ?_⟩
  rcases hcause with ⟨rfl, rfl⟩ | ⟨rfl, rfl⟩
  · exact .inl ⟨rfl, Token.prefix_of_scan_eq_tag hfault, hfault⟩
  · exact .inr ⟨rfl, Token.scan_eq_comment_iff.1 hfault⟩

/-- A text that breaks off inside a value, behind another tag and a text that holds a brace. -/
theorem parse_before_fault_value :
    ∃ before rest tokens, "<p>x < y<a href=\"z>".toList = before ++ rest ∧
      Token.Scans "<p>x < y<a href=\"z>".toList tokens rest ∧
        parse before = .ok (ofForest (.ofTokens tokens)) ∧ Text.byteSize before = 8 := by
  have h : parse "<p>x < y<a href=\"z>".toList = .error (.unterminatedTag 8) := by decide +kernel
  obtain ⟨before, rest, tokens, hsource, htokens, hbefore, ⟨hcause, -⟩ | ⟨hcause, -⟩⟩ :=
    parse_before_fault h
  · have hsize := MarkupError.unterminatedTag.inj hcause
    exact ⟨before, rest, tokens, hsource, htokens, hbefore, hsize.symm⟩
  · cases hcause

end Document
end MailTemplate
