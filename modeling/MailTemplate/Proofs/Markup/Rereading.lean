import MailTemplate.Proofs.Markup.Reparse

/-! Reading again. What is read at the front of a text is read again wherever the text goes on in
another way: an attribute in front of the same character, a tag, a comment or a declaration in front of
anything, plain text in front of markup. -/

namespace MailTemplate
namespace Attribute

section
variable {source rest value : Text}

theorem value?_of_bare (h : ∀ c ∈ source.head?, c ≠ '"' ∧ c ≠ '\'') :
    value? source = some (source.takeWhile isBareChar, source.dropWhile isBareChar) := by
  unfold value?
  split
  · exact absurd rfl (h _ rfl).1
  · exact absurd rfl (h _ rfl).2
  · rfl

/-- A value is read again in front of every text that begins with the same character. -/
theorem exists_value? (h : value? source = some (value, rest)) :
    ∃ front, source = front ++ rest ∧
      ∀ other, other.head? = rest.head? → value? (front ++ other) = some (value, other) := by
  unfold value? at h
  split at h
  · next source =>
    have hs := Text.eq_append_of_cut? h
    rw [hs] at h
    refine ⟨'"' :: (value ++ ['"']), by rw [hs, List.cons_append], fun other _ => ?_⟩
    exact Text.cut?_append_congr (List.cons_ne_nil _ _) h other
  · next source =>
    have hs := Text.eq_append_of_cut? h
    rw [hs] at h
    refine ⟨'\'' :: (value ++ ['\'']), by rw [hs, List.cons_append], fun other _ => ?_⟩
    exact Text.cut?_append_congr (List.cons_ne_nil _ _) h other
  · next hdouble hsingle =>
    cases h
    refine ⟨_, List.takeWhile_append_dropWhile.symm, fun other ho => ?_⟩
    obtain ⟨htake, hdrop⟩ := Text.run_append_congr isBareChar ho
    have hhead := Text.head?_append_congr (source.takeWhile isBareChar) ho
    rw [List.takeWhile_append_dropWhile] at hhead
    rw [value?_of_bare, htake, hdrop]
    intro c hc
    rw [hhead] at hc
    obtain ⟨tail, rfl⟩ := List.head?_eq_some_iff.1 hc
    exact ⟨fun he => hdouble tail (by rw [he]), fun he => hsingle tail (by rw [he])⟩

theorem nameAndRest_of_eq_nil (h : source.takeWhile isNameChar = []) :
    nameAndRest source = (['='], source.drop 1) := by rw [nameAndRest, h]

theorem nameAndRest_of_ne_nil (h : source.takeWhile isNameChar ≠ []) :
    nameAndRest source = (source.takeWhile isNameChar, source.dropWhile isNameChar) := by
  unfold nameAndRest
  split
  · next he => exact absurd he h
  · rfl

theorem exists_nameAndRest (c : Char) (source : Text) :
    ∃ front ≠ [], c :: source = front ++ (nameAndRest (c :: source)).2 ∧
      ∀ other, other.head? = (nameAndRest (c :: source)).2.head? →
        nameAndRest (front ++ other) = ((nameAndRest (c :: source)).1, other) := by
  by_cases hn : (c :: source).takeWhile isNameChar = []
  · have hc : ¬ isNameChar c = true := fun hc => by
      rw [List.takeWhile_cons_of_pos hc] at hn
      cases hn
    rw [nameAndRest_of_eq_nil hn]
    refine ⟨[c], List.cons_ne_nil _ _, rfl, fun other _ => ?_⟩
    exact nameAndRest_of_eq_nil (List.takeWhile_cons_of_neg hc)
  · rw [nameAndRest_of_ne_nil hn]
    refine ⟨_, hn, List.takeWhile_append_dropWhile.symm, fun other ho => ?_⟩
    obtain ⟨htake, hdrop⟩ := Text.run_append_congr isNameChar ho
    rw [nameAndRest_of_ne_nil (by rwa [htake]), htake, hdrop]

theorem scan?_eq_some_iff {attr : Attribute} : scan? source = some (attr, rest) ↔
    (∃ after value, Text.dropSpace (nameAndRest source).2 = '=' :: after ∧
        value? (Text.dropSpace after) = some (value, rest) ∧
          attr = ⟨(nameAndRest source).1, some value⟩) ∨
      (Text.dropSpace (nameAndRest source).2 = rest ∧ (∀ c ∈ rest.head?, c ≠ '=') ∧
        attr = ⟨(nameAndRest source).1, none⟩) := by
  simp only [scan?]
  split
  · next after hafter =>
    rw [hafter]
    constructor
    · intro h
      obtain ⟨⟨value, last⟩, hvalue, he⟩ := Option.map_eq_some_iff.1 h
      cases he
      exact .inl ⟨after, value, rfl, hvalue, rfl⟩
    · rintro (⟨other, value, he, hvalue, rfl⟩ | ⟨rfl, hn, -⟩)
      · obtain rfl := (List.cons.inj he).2
        rw [hvalue]
        rfl
      · exact absurd rfl (hn '=' rfl)
  · next hnone =>
    constructor
    · intro h
      cases h
      refine .inr ⟨rfl, fun c hc he => ?_, rfl⟩
      obtain ⟨tail, htail⟩ := List.head?_eq_some_iff.1 hc
      exact hnone tail (he ▸ htail)
    · rintro (⟨other, value, he, -, -⟩ | ⟨rfl, -, rfl⟩)
      · exact absurd he (hnone other)
      · rfl

/-- An attribute is read again in front of every text that begins with the same character. -/
theorem exists_scan? {c : Char} {attr : Attribute} (h : scan? (c :: source) = some (attr, rest)) :
    ∃ front ≠ [], c :: source = front ++ rest ∧
      ∀ other, other.head? = rest.head? → scan? (front ++ other) = some (attr, other) := by
  obtain ⟨name, hn, hname, hread⟩ := exists_nameAndRest c source
  rw [scan?_eq_some_iff] at h
  generalize hnamed : nameAndRest (c :: source) = named at *
  obtain ⟨read, behind⟩ := named
  have hbehind := Text.spaceOf_append_dropSpace behind
  rcases h with ⟨after, value, hafter, hvalue, rfl⟩ | ⟨rfl, hnone, rfl⟩
  · obtain ⟨front, hfront, hagain⟩ := exists_value? hvalue
    have hspace := Text.spaceOf_append_dropSpace after
    rw [hfront] at hspace
    rw [hafter, ← hspace] at hbehind
    let between (other : Text) := Text.spaceOf behind ++ '=' :: (Text.spaceOf after ++ (front ++ other))
    have hassoc : ∀ other, name ++ between [] ++ other = name ++ between other := by
      intro other
      simp [between]
    refine ⟨name ++ between [], List.append_ne_nil_of_left_ne_nil hn _, ?_, fun other ho => ?_⟩
    · rw [hassoc]
      exact hname.trans (congrArg (name ++ ·) hbehind.symm)
    · have hnext : nameAndRest (name ++ between other) = (read, between other) := by
        refine hread _ ?_
        conv => rhs; rw [← hbehind]
        exact Text.head?_append_congr _ rfl
      have hequals : Text.dropSpace (between other) =
          '=' :: (Text.spaceOf after ++ (front ++ other)) := by
        refine Text.dropSpace_append_congr ?_
        rw [hafter]
        rfl
      have hinner : Text.dropSpace (Text.spaceOf after ++ (front ++ other)) = front ++ other := by
        refine Text.dropSpace_append_congr ?_
        rw [hfront]
        exact Text.head?_append_congr front ho
      rw [hassoc, scan?_eq_some_iff, hnext]
      refine .inl ⟨_, value, hequals, ?_, rfl⟩
      rw [hinner, hagain other ho]
  · refine ⟨name ++ Text.spaceOf behind, List.append_ne_nil_of_left_ne_nil hn _, ?_,
      fun other ho => ?_⟩
    · rw [List.append_assoc, hbehind, hname]
    · have hnext : nameAndRest (name ++ (Text.spaceOf behind ++ other)) =
          (read, Text.spaceOf behind ++ other) := by
        refine hread _ ?_
        conv => rhs; rw [← hbehind]
        exact Text.head?_append_congr _ ho
      rw [List.append_assoc, scan?_eq_some_iff, hnext]
      refine .inr ⟨Text.dropSpace_append_congr ho, ?_, rfl⟩
      rwa [ho]

end
end Attribute

section
variable {source rest front : Text}

theorem Text.dropSpace_again (h : dropSpace source = front ++ rest) (hn : front ≠ []) :
    source = spaceOf source ++ front ++ rest ∧
      ∀ other, dropSpace (spaceOf source ++ front ++ other) = front ++ other := by
  have hspace := spaceOf_append_dropSpace source
  constructor
  · rw [List.append_assoc, ← h, hspace]
  · intro other
    rw [List.append_assoc]
    refine dropSpace_append_congr ?_
    rw [h, List.head?_append_of_ne_nil _ hn, List.head?_append_of_ne_nil _ hn]

theorem attributes?_slash {tail : Text} (h : Text.dropSpace source = '/' :: tail)
    (hn : ∀ c ∈ tail.head?, c ≠ '>') : attributes? source = attributes? tail := by
  rw [attributes?]
  split
  · next he => simp [h] at he
  · next he => exact absurd (List.cons.inj (h.symm.trans he)).1 (by decide)
  · next r he =>
    obtain ⟨-, rfl⟩ := List.cons.inj (h.symm.trans he)
    exact absurd rfl (hn _ rfl)
  · next r _ he =>
    obtain ⟨-, rfl⟩ := List.cons.inj (h.symm.trans he)
    rfl
  · next c r _ _ hslash he => exact absurd (List.cons.inj (h.symm.trans he)).1.symm hslash

theorem exists_attributes? {attributes : List Attribute} {selfClosing : Bool}
    (h : attributes? source = some (attributes, selfClosing, rest)) :
    ∃ front ≠ [], source = front ++ rest ∧
      ∀ other, attributes? (front ++ other) = some (attributes, selfClosing, other) := by
  fun_induction attributes? source generalizing attributes selfClosing rest with
  | case1 => cases h
  | case2 source r hs =>
    cases h
    have hdrop : Text.dropSpace source = ['>'] ++ r := hs
    obtain ⟨hsource, hagain⟩ := Text.dropSpace_again hdrop (List.cons_ne_nil _ _)
    exact ⟨Text.spaceOf source ++ ['>'], by simp, hsource, fun other =>
      attributes?_close (hagain other)⟩
  | case3 source r hs =>
    cases h
    have hdrop : Text.dropSpace source = ['/', '>'] ++ r := hs
    obtain ⟨hsource, hagain⟩ := Text.dropSpace_again hdrop (List.cons_ne_nil _ _)
    exact ⟨Text.spaceOf source ++ ['/', '>'], by simp, hsource, fun other =>
      attributes?_selfClose (hagain other)⟩
  | case4 source r hbrace hs ih =>
    obtain ⟨front, hn, rfl, hread⟩ := ih h
    have hdrop : Text.dropSpace source = '/' :: front ++ rest := hs
    obtain ⟨hsource, hagain⟩ := Text.dropSpace_again hdrop (List.cons_ne_nil _ _)
    refine ⟨Text.spaceOf source ++ '/' :: front, by simp, hsource, fun other => ?_⟩
    refine (attributes?_slash (hagain other) fun c hc he => ?_).trans (hread other)
    obtain ⟨d, front, rfl⟩ := List.exists_cons_of_ne_nil hn
    obtain rfl : d = c := Option.some.inj hc
    exact hbrace (front ++ rest) (by rw [he]; rfl)
  | case5 => cases h
  | case6 source c r hg _ hslash hs attr r' hscan ih =>
    obtain ⟨⟨later, closing, last⟩, hlater, he⟩ := Option.map_eq_some_iff.1 h
    cases he
    obtain ⟨back, hb, rfl, hback⟩ := ih hlater
    obtain ⟨front, hn, hfront, hscan⟩ := Attribute.exists_scan? hscan
    obtain ⟨d, front, rfl⟩ := List.exists_cons_of_ne_nil hn
    obtain rfl : c = d := (List.cons.inj hfront).1
    rw [hfront, ← List.append_assoc] at hs
    obtain ⟨hsource, hagain⟩ := Text.dropSpace_again hs (List.cons_ne_nil _ _)
    refine ⟨Text.spaceOf source ++ (c :: front ++ back), by simp, hsource, fun other => ?_⟩
    have hfirst : Attribute.scan? (c :: (front ++ back ++ other)) = some (attr, back ++ other) := by
      rw [List.append_assoc]
      refine hscan (back ++ other) ?_
      rw [List.head?_append_of_ne_nil _ hb, List.head?_append_of_ne_nil _ hb]
    have hdrop : Text.dropSpace (Text.spaceOf source ++ (c :: front ++ back) ++ other) =
        c :: (front ++ back ++ other) := hagain other
    rw [attributes?_scan hdrop hg hslash, hfirst, Option.bind_some, hback other]
    rfl

end

namespace Token

section
variable {source rest : Text} {token : Token}

theorem exists_rawContent {name : Text} (h : (rawContent name source).2 ≠ []) :
    ∃ content stop back, source = content ++ stop ++ back ∧ Text.lower stop = '<' :: '/' :: name ∧
      ∀ other, rawContent name (content ++ stop ++ other) = (content, stop ++ other) := by
  cases hcut : Text.cut? ('<' :: '/' :: name) (Text.lower source) with
  | none => simp [rawContent, hcut] at h
  | some cut =>
    obtain ⟨before, after⟩ := cut
    have hlower := Text.eq_append_of_cut? hcut
    rw [hlower] at hcut
    obtain ⟨marked, back, rfl, hmarked, -⟩ := List.map_eq_append_iff.1 hlower
    obtain ⟨content, stop, rfl, rfl, hstop⟩ := List.map_eq_append_iff.1 hmarked
    refine ⟨content, stop, back, rfl, hstop, fun other => ?_⟩
    have hother : Text.lower (content ++ stop ++ other) =
        content.map Char.toLower ++ '<' :: '/' :: name ++ Text.lower other := by
      rw [Text.lower_append, Text.lower_append, ← hstop]
      rfl
    unfold rawContent
    rw [hother, Text.cut?_append_congr (List.cons_ne_nil _ _) hcut]
    simp

theorem exists_afterBrace (h : afterBrace source ≠ []) :
    ∃ before, source = before ++ ['>'] ++ afterBrace source ∧
      ∀ other, afterBrace (before ++ ['>'] ++ other) = other := by
  cases hcut : Text.cut? ['>'] source with
  | none => simp [afterBrace, hcut] at h
  | some cut =>
    obtain ⟨before, after⟩ := cut
    have hafter : afterBrace source = after := by rw [afterBrace, hcut, Option.elim_some]
    have hsource := Text.eq_append_of_cut? hcut
    rw [hsource] at hcut
    refine ⟨before, by rw [hafter, hsource], fun other => ?_⟩
    rw [afterBrace, Text.cut?_append_congr (List.cons_ne_nil _ _) hcut, Option.elim_some]

theorem ofStart_of_isRaw {element : Element} (h : element.isLeaf = false)
    (hr : element.isRaw = true) (source : Text) :
    ofStart element source = (complete element (rawContent element.name source).1,
      afterBrace (rawContent element.name source).2) := by
  have h' : (element.selfClosing || element.isVoid) = false := h
  simp [ofStart, h', hr]

theorem exists_ofStart_of_isRaw {element : Element} (hl : element.isLeaf = false)
    (hraw : element.isRaw = true) (hr : (ofStart element source).2 ≠ []) :
    ∃ front, source = front ++ (ofStart element source).2 ∧
      ∀ other, ofStart element (front ++ other) = ((ofStart element source).1, other) := by
  simp only [ofStart_of_isRaw hl hraw] at hr ⊢
  have hn : (rawContent element.name source).2 ≠ [] := by
    intro he
    rw [he] at hr
    exact hr rfl
  obtain ⟨content, stop, back, rfl, hstop, hread⟩ := exists_rawContent hn
  simp only [hread back] at hr ⊢
  obtain ⟨before, hbefore, hagain⟩ := exists_afterBrace hr
  have hbrace : '>' ∉ stop := by
    rw [← Text.mem_lower_iff (by decide), hstop]
    change '>' ∉ element.closing
    rcases Element.closing_eq_or hraw with he | he <;> rw [he] <;> decide
  rw [List.append_assoc before] at hbefore
  obtain ⟨inner, rfl, hback⟩ := Text.exists_append_of_notMem hbrace hbefore
  refine ⟨content ++ stop ++ (inner ++ ['>']), ?_, fun other => ?_⟩
  · conv => lhs; rw [hback]
    simp
  · have hother : afterBrace (stop ++ (inner ++ ['>'] ++ other)) = other := by
      simpa using hagain other
    rw [List.append_assoc (content ++ stop), hread, hother]

/-- What stands behind a start tag, up to where the next token begins, is read again in front of every
other text. -/
theorem exists_ofStart {element : Element} (h : ofStart element source = (token, rest))
    (hr : rest ≠ []) : ∃ front, source = front ++ rest ∧
      ∀ other, ofStart element (front ++ other) = (token, other) := by
  by_cases hl : element.isLeaf = true
  · rw [ofStart_leaf hl] at h
    cases h
    exact ⟨[], rfl, fun other => ofStart_leaf hl⟩
  rw [Bool.not_eq_true] at hl
  by_cases hraw : element.isRaw = true
  · have hsource : (ofStart element source).2 = rest := congrArg Prod.snd h
    have htoken : (ofStart element source).1 = token := congrArg Prod.fst h
    rw [← hsource] at hr
    rw [← hsource, ← htoken]
    exact exists_ofStart_of_isRaw hl hraw hr
  · rw [Bool.not_eq_true] at hraw
    rw [ofStart_start hl hraw] at h
    cases h
    exact ⟨[], rfl, fun other => ofStart_start hl hraw⟩

theorem exists_startTag (h : startTag source = .ok (token, rest)) (hr : rest ≠ []) :
    ∃ front ≠ [], source = front ++ rest ∧
      ∀ other, startTag (front ++ other) = .ok (token, other) := by
  unfold startTag at h
  split at h
  · cases h
  · next attributes selfClosing after hattributes =>
    obtain ⟨back, rfl, hback⟩ := exists_ofStart (Except.ok.inj h) hr
    obtain ⟨front, hn, hfront, hread⟩ := exists_attributes? hattributes
    have hsource := List.takeWhile_append_dropWhile (p := isNameChar) (l := source)
    rw [hfront] at hsource
    refine ⟨source.takeWhile isNameChar ++ (front ++ back), by simp [hn], ?_, fun other => ?_⟩
    · exact hsource.symm.trans (by simp)
    · have hhead : (front ++ (back ++ other)).head? = (source.dropWhile isNameChar).head? := by
        rw [hfront, List.head?_append_of_ne_nil _ hn, List.head?_append_of_ne_nil _ hn]
      obtain ⟨htake, hdrop⟩ := Text.run_append_congr isNameChar hhead
      rw [List.append_assoc, List.append_assoc]
      unfold startTag
      rw [htake, hdrop, hread]
      exact congrArg Except.ok (hback other)

theorem exists_stopTag (h : stopTag source = .ok (token, rest)) :
    ∃ front ≠ [], source = front ++ rest ∧
      ∀ other, stopTag (front ++ other) = .ok (token, other) := by
  unfold stopTag at h
  split at h
  · cases h
  · next before after hcut =>
    cases h
    have hdrop := Text.eq_append_of_cut? hcut
    rw [hdrop] at hcut
    have hsource := List.takeWhile_append_dropWhile (p := isStopChar) (l := source)
    rw [hdrop] at hsource
    refine ⟨source.takeWhile isStopChar ++ (before ++ ['>']), by simp, ?_, fun other => ?_⟩
    · exact hsource.symm.trans (by simp)
    · have hhead : (before ++ ['>'] ++ other).head? = (source.dropWhile isStopChar).head? := by
        have hn : before ++ ['>'] ≠ [] := by simp
        rw [hdrop, List.head?_append_of_ne_nil _ hn, List.head?_append_of_ne_nil _ hn]
      obtain ⟨htake, hrest⟩ := Text.run_append_congr isStopChar hhead
      rw [List.append_assoc]
      unfold stopTag
      rw [htake, hrest, Text.cut?_append_congr (List.cons_ne_nil _ _) hcut]

theorem scan_eq_startTag {c : Char} (hc : c.isAlpha = true) (source : Text) :
    scan ('<' :: c :: source) = startTag (c :: source) := by
  unfold scan
  rw [Lead.ofText_start hc]
  rfl

theorem scan_eq_stopTag {c : Char} (hc : c.isAlpha = true) (source : Text) :
    scan ('<' :: '/' :: c :: source) = stopTag (c :: source) := by
  unfold scan
  rw [Lead.ofText_stop hc]
  rfl

/-- A token is a leaf as it is written, a start tag or an end tag. -/
theorem scan_cases (h : scan source = .ok (token, rest)) :
    (∃ leaf, token = .leaf leaf ∧ source = leaf.source ++ rest) ∨
      (∃ c after, c.isAlpha = true ∧ source = '<' :: c :: after ∧
        startTag (c :: after) = .ok (token, rest)) ∨
      ∃ c after, c.isAlpha = true ∧ source = '<' :: '/' :: c :: after ∧
        stopTag (c :: after) = .ok (token, rest) := by
  cases hl : Lead.ofText source with
  | comment =>
    obtain ⟨inner, rfl⟩ := Lead.ofText_eq_comment_iff.1 hl
    unfold scan at h
    rw [hl] at h
    simp only at h
    split at h
    · cases h
    · next body after hcut =>
      cases h
      refine .inl ⟨_, rfl, ?_⟩
      have hinner : inner = body ++ "-->".toList ++ rest := Text.eq_append_of_cut? hcut
      rw [hinner, Leaf.source]
      simp
  | declaration =>
    unfold scan at h
    rw [hl] at h
    simp only at h
    split at h
    · cases h
    · next before after hcut =>
      cases h
      exact .inl ⟨_, rfl, Text.eq_append_of_cut? hcut⟩
  | stop =>
    obtain ⟨c, after, rfl, hc⟩ := Lead.ofText_eq_stop_iff.1 hl
    rw [scan_eq_stopTag hc] at h
    exact .inr (.inr ⟨c, after, hc, rfl, h⟩)
  | start =>
    obtain ⟨c, after, rfl, hc⟩ := Lead.ofText_eq_start_iff.1 hl
    rw [scan_eq_startTag hc] at h
    exact .inr (.inl ⟨c, after, hc, rfl, h⟩)
  | text =>
    unfold scan at h
    rw [hl] at h
    cases h
    exact .inl ⟨_, rfl, (plainText_append source).symm⟩

/-- A token is read again where the text ends behind it or goes on in another way; behind plain text
markup has to begin. -/
theorem exists_scan (hs : source ≠ []) (h : scan source = .ok (token, rest)) :
    ∃ front ≠ [], source = front ++ rest ∧ ∀ other, (rest = [] → other = []) →
      (∀ content, token = .leaf (.text content) → other = [] ∨ Lead.ofText other ≠ .text) →
        scan (front ++ other) = .ok (token, other) := by
  by_cases hr : rest = []
  · subst hr
    refine ⟨source, hs, (List.append_nil _).symm, fun other ho _ => ?_⟩
    rw [ho rfl, List.append_nil, h]
  have hw : token.WellFormed := by
    obtain ⟨c, tail, rfl⟩ := List.exists_cons_of_ne_nil hs
    exact wellFormed_of_scan h
  rcases scan_cases h with ⟨leaf, rfl, hsource⟩ | ⟨c, after, hc, rfl, htag⟩ |
    ⟨c, after, hc, rfl, htag⟩
  · refine ⟨leaf.source, Leaf.source_ne_nil hw, hsource, fun other _ htext => ?_⟩
    exact scan_source hw fun content he => htext content (congrArg Token.leaf he)
  · obtain ⟨front, hn, hfront, hread⟩ := exists_startTag htag hr
    obtain ⟨d, front, rfl⟩ := List.exists_cons_of_ne_nil hn
    obtain rfl : c = d := (List.cons.inj hfront).1
    refine ⟨'<' :: c :: front, List.cons_ne_nil _ _, congrArg _ hfront, fun other _ _ => ?_⟩
    exact (scan_eq_startTag hc (front ++ other)).trans (hread other)
  · obtain ⟨front, hn, hfront, hread⟩ := exists_stopTag htag
    obtain ⟨d, front, rfl⟩ := List.exists_cons_of_ne_nil hn
    obtain rfl : c = d := (List.cons.inj hfront).1
    refine ⟨'<' :: '/' :: c :: front, List.cons_ne_nil _ _,
      congrArg (fun tail => '<' :: '/' :: tail) hfront, fun other _ _ => ?_⟩
    exact (scan_eq_stopTag hc (front ++ other)).trans (hread other)

end
end Token
end MailTemplate
