import MailTemplate.Proofs.Style.WordsDeclared

/-! Words in stylesheets. Comments, at-rules and blocks are cut at characters that no placeholder holds,
so the declarations of a stylesheet are those of texts with whole placeholders. -/

namespace MailTemplate
open Guard

namespace Sheet

theorem after?_eq_none_of_head {mark text : Text} {m c : Char} (h : m ≠ c) :
    Text.after? (m :: mark) (c :: text) = none := if_neg h

theorem dropComments_cons_of_after?_eq_none {c : Char} {css : Text}
    (h : Text.after? "/*".toList (c :: css) = none) :
    dropComments (c :: css) = (dropComments css).map (c :: ·) := by
  rw [dropComments]
  split
  · rfl
  · next ha =>
    rw [h] at ha
    cases ha

theorem dropComments_append {front : Text} (h : '/' ∉ front) (css : Text) :
    dropComments (front ++ css) = (dropComments css).map (front ++ ·) := by
  induction front with
  | nil => cases hd : dropComments css <;> simp [hd, Except.map]
  | cons c front ih =>
    rw [List.mem_cons, not_or] at h
    have hnone : Text.after? "/*".toList (c :: (front ++ css)) = none := after?_eq_none_of_head h.1
    rw [List.cons_append, dropComments_cons_of_after?_eq_none hnone, ih h.2]
    cases dropComments css <;> rfl

theorem declarations_of_rule? {selectors body : Text} {rule : Rule}
    (h : rule? selectors body = some rule) : rule.declarations = Declaration.block body := by
  unfold rule? at h
  split at h
  · cases h
  · cases h
    rfl

end Sheet

theorem Declaration.opener_mem_of_block {body : Text} {declaration : Declaration}
    (h : declaration ∈ block body) (ho : opener ∈ declaration.property) : opener ∈ body := by
  obtain ⟨part, hpart, hd⟩ := List.mem_filterMap.1 h
  obtain ⟨property, value, hcut, hp, -⟩ := ofText?_eq_some hd
  rw [hp, Text.mem_lower_iff (by decide), mem_trim_iff (by decide)] at ho
  have hin : opener ∈ part := by
    rw [Text.eq_append_of_cut? hcut]
    exact List.mem_append_left _ (List.mem_append_left _ ho)
  have hinfix : part <:+: Text.joinWith [';'] (Text.splitOutside ';' body) :=
    Text.infix_joinWith hpart
  rw [Text.joinWith_splitOutside] at hinfix
  exact hinfix.subset hin

section
variable {words : Text → Prop} (hw : ∀ word, words word → IsWord word) {css : Text}
include hw

theorem slash_notMem_of_words {word : Text} (h : words word) : '/' ∉ word := by
  obtain ⟨body, rfl, hinner⟩ := hw word h
  intro hm
  rcases List.mem_cons.1 hm with hm | hm
  · exact absurd hm (by decide)
  · rcases List.mem_append.1 hm with hm | hm
    · exact absurd (hinner _ hm) (by decide)
    · exact absurd (List.mem_singleton.1 hm) (by decide)

theorem sound_dropComments (h : Guard.Sound words css) {plain : Text}
    (hd : Sheet.dropComments css = .ok plain) : Guard.Sound words plain := by
  induction hl : css.length using Nat.strongRecOn generalizing css plain with
  | _ n ih =>
    subst hl
    cases h with
    | nil =>
      rw [Sheet.dropComments] at hd
      cases hd
      exact .nil
    | @char c css ho hc ht =>
      cases ha : Text.after? "/*".toList (c :: css) with
      | none =>
        rw [Sheet.dropComments_cons_of_after?_eq_none ha] at hd
        cases hrest : Sheet.dropComments css with
        | error _ =>
          rw [hrest] at hd
          cases hd
        | ok rest =>
          rw [hrest] at hd
          cases hd
          exact .char ho hc (ih _ (Nat.lt_succ_self _) ht hrest rfl)
      | some inner =>
        have hwhole : c :: css = "/*".toList ++ inner := Text.after?_eq_some_iff.1 ha
        have hinner : Guard.Sound words inner := by
          have hs : Guard.Sound words ("/*".toList ++ inner) := hwhole ▸ .char ho hc ht
          exact hs.of_append hw (by decide)
        rw [Sheet.dropComments] at hd
        split at hd
        · next hn =>
          rw [ha] at hn
          cases hn
        · next after hs =>
          rw [ha] at hs
          cases hs
          split at hd
          · cases hd
          · next body rest hcut =>
            have hlen : rest.length < (c :: css).length := by
              rw [hwhole, Text.eq_append_of_cut? hcut]
              simp only [List.length_append]
              have hmark : "*/".toList.length = 2 := by decide
              omega
            have hstops : ∀ c ∈ ("*/".toList).head?, Stops c := by
              intro c hc
              rw [← Option.some.inj hc]
              exact ⟨by decide, by decide⟩
            have hstarts : ∀ c ∈ ("*/".toList).getLast?, Starts c := by
              intro c hc
              rw [← Option.some.inj hc]
              exact ⟨by decide, by decide⟩
            have hrest := (hinner.cut? hw hcut hstops hstarts (by decide)).2
            exact ih _ hlen hrest hd rfl
    | @word word text hword ht =>
      rw [Sheet.dropComments_append (slash_notMem_of_words hw hword)] at hd
      cases hrest : Sheet.dropComments text with
      | error _ =>
        rw [hrest] at hd
        cases hd
      | ok rest =>
        rw [hrest] at hd
        cases hd
        have hlen : text.length < (word ++ text).length := by
          obtain ⟨body, rfl, -⟩ := hw word hword
          simp only [List.length_append, List.length_cons]
          omega
        exact .word hword (ih _ hlen ht hrest rfl)

theorem sound_block? (h : Guard.Sound words css) {depth : Nat} {body rest : Text}
    (hb : Sheet.block? depth css = some (body, rest)) :
    Guard.Sound words body ∧ Guard.Sound words rest := by
  rw [Sheet.eq_append_of_block? hb] at h
  obtain ⟨hbody, hrest⟩ := h.split hw <| .inl fun c hc => by
    rw [← Option.some.inj hc]
    exact ⟨by decide, by decide⟩
  exact ⟨hbody, hrest.tail hw (by decide)⟩

theorem sound_afterAtRule (h : Guard.Sound words css) {rest : Text}
    (ha : Sheet.afterAtRule css = .ok rest) : Guard.Sound words rest := by
  have hends : ∀ c : Char, (c != ';' && c != '{') = false → c = ';' ∨ c = '{' := by
    intro c hc
    by_contra hne
    rw [not_or] at hne
    simp [hne.1, hne.2] at hc
  have hdrop : Guard.Sound words (css.dropWhile fun c => c != ';' && c != '{') := by
    refine (h.dropWhile hw (.inl fun c hc => ?_)).2
    rcases hends c hc with rfl | rfl <;> exact ⟨by decide, by decide⟩
  unfold Sheet.afterAtRule at ha
  split at ha
  · cases ha
    exact .nil
  · next c after hs =>
    rw [hs] at hdrop
    have hc : c ≠ opener := by
      have hhead := List.head?_dropWhile_not (fun c => c != ';' && c != '{') css
      rw [hs] at hhead
      rcases hends c hhead with rfl | rfl <;> decide
    have hafter := hdrop.tail hw hc
    split at ha
    · cases ha
      exact hafter
    · split at ha
      · next hb =>
        cases ha
        exact (sound_block? hw hafter hb).2
      · cases ha

section
variable (hmf : ∀ word, words word → ∃ rest, word = opener :: 'm' :: 'f' :: ':' :: rest)
include hmf

theorem sound_block {body : Text} (h : Guard.Sound words body) :
    ∀ declaration ∈ Declaration.block body, declaration.Sound words := by
  intro declaration hm
  obtain ⟨part, hpart, hd⟩ := List.mem_filterMap.1 hm
  have hstops : Stops ';' := ⟨by decide, by decide⟩
  have hstarts : Starts ';' := ⟨by decide, by decide⟩
  exact sound_ofText? hw hmf (sound_splitOutside hw hstops hstarts h part hpart) hd

theorem sound_rules (h : Guard.Sound words css) {rules : List Rule}
    (hr : Sheet.rules css = .ok rules) :
    ∀ rule ∈ rules, ∀ declaration ∈ rule.declarations, declaration.Sound words := by
  fun_induction Sheet.rules css generalizing rules with
  | case1 =>
    cases hr
    intro rule hm
    cases hm
  | case2 c css hskip ih =>
    refine ih (h.tail hw ?_) hr
    rintro rfl
    revert hskip
    decide
  | case3 css hskip => cases hr
  | case4 css fault ha hskip => cases hr
  | case5 css rest ha hskip hend ih =>
    exact ih (sound_afterAtRule hw (h.tail hw (by decide)) ha) hr
  | case6 c css => cases hr
  | case7 c css => cases hr
  | case8 c css hskip hend hat selectors inner hcut body rest hb ih =>
    have hstops : Stops '{' := ⟨by decide, by decide⟩
    have hstarts : Starts '{' := ⟨by decide, by decide⟩
    have hinner : Guard.Sound words inner := by
      refine (h.cut? hw hcut (fun c hc => ?_) (fun c hc => ?_) (List.cons_ne_nil _ _)).2
      · rwa [← Option.some.inj hc]
      · rwa [← Option.some.inj hc]
    obtain ⟨hbody, hrest⟩ := sound_block? hw hinner hb
    cases hlater : Sheet.rules rest with
    | error _ =>
      rw [hlater] at hr
      cases hr
    | ok later =>
      rw [hlater] at hr
      cases hr
      intro rule hm
      rcases List.mem_append.1 hm with hm | hm
      · rw [Sheet.declarations_of_rule? (Option.mem_toList.1 hm)]
        exact sound_block hw hmf hbody
      · exact ih hrest hlater rule hm

theorem sound_sheet (h : Guard.Sound words css) {rules : List Rule}
    (hr : Sheet.parse css = .ok rules) :
    ∀ rule ∈ rules, ∀ declaration ∈ rule.declarations, declaration.Sound words := by
  unfold Sheet.parse at hr
  split at hr
  · cases hr
  · next plain hplain =>
    split at hr
    · cases hr
    · next found hfound =>
      cases hr
      exact sound_rules hw hmf (sound_dropComments hw h hplain) hfound

end
end
end MailTemplate
