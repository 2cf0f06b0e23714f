import MailTemplate.Proofs.Markup.Printed

/-! The tokens of a forest. Printing a forest and reading the page gives the tokens of the forest,
and the tokens give the forest back, as long as no two texts stand side by side and the attributes
of every tag are apart. -/

namespace MailTemplate

def Leaf.isText : Leaf → Bool
  | .text _ => true
  | _ => false

theorem Leaf.source_ne_nil {leaf : Leaf} (h : leaf.WellFormed) : leaf.source ≠ [] := by
  cases leaf with
  | text content => exact h.1
  | comment body => exact List.cons_ne_nil _ _
  | declaration source =>
    obtain ⟨-, before, -, rfl⟩ := h
    exact List.append_ne_nil_of_right_ne_nil _ (List.cons_ne_nil _ _)

namespace Forest

/-- The text that a complete element has inside. -/
def content : Forest → Text
  | leaf (.text content) nil => content
  | _ => []

@[simp] theorem content_ofContent (text : Text) : (ofContent text).content = text := by
  by_cases h : text = []
  · simp [ofContent, content, h]
  · simp [ofContent, content, h]

@[simp] theorem render_ofContent (text : Text) : (ofContent text).render = text := by
  by_cases h : text = []
  · simp [ofContent, render, h]
  · simp [ofContent, render, h, Leaf.source]

def tokens : Forest → List Token
  | nil => []
  | leaf l next => .leaf l :: next.tokens
  | element e children next =>
    (if e.isLeaf || e.isRaw then [.complete e children.content]
      else .start e :: (children.tokens ++ [.stop e.name])) ++ next.tokens

def append : Forest → Forest → Forest
  | nil, other => other
  | leaf l next, other => leaf l (next.append other)
  | element e children next, other => element e children (next.append other)

@[simp] theorem append_nil (forest : Forest) : forest.append nil = forest := by
  induction forest with
  | nil => rfl
  | leaf l next ih => rw [append, ih]
  | element e children next _ ih => rw [append, ih]

theorem wellFormed_element_iff {e : Element} {children next : Forest} :
    (element e children next).WellFormed ↔ e.WellFormed ∧ next.WellFormed ∧
      ((e.isLeaf = true ∧ children = nil) ∨
        (e.isLeaf = false ∧ e.isRaw = true ∧
          ∃ text, children = ofContent text ∧ ¬ e.closing <:+: Text.lower text) ∨
        (e.isLeaf = false ∧ e.isRaw = false ∧ children.WellFormed)) := by
  have hnil : ∀ text, ofContent text = nil ↔ text = [] := by
    intro text
    by_cases ht : text = [] <;> simp [ofContent, ht]
  by_cases hl : e.isLeaf = true
  · have hc : (∃ text, children = ofContent text ∧ e.Holds text) ↔ children = nil := by
      simp only [Element.Holds, hl, if_true]
      constructor
      · rintro ⟨text, rfl, ht⟩
        exact (hnil text).2 ht
      · rintro rfl
        exact ⟨[], rfl, rfl⟩
    simp only [WellFormed, hl, Bool.true_or, if_true, hc, true_and, Bool.true_eq_false, false_and,
      or_false]
    rw [and_comm (b := next.WellFormed)]
  · by_cases hr : e.isRaw = true
    · simp [WellFormed, Element.Holds, hl, hr, and_comm]
    · simp [WellFormed, hl, hr, and_comm]

theorem WellFormed.content_cases {e : Element} {children next : Forest}
    (h : (element e children next).WellFormed) :
    (e.isLeaf = true ∧ children = nil) ∨
      (e.isLeaf = false ∧ e.isRaw = true ∧
        ∃ text, children = ofContent text ∧ ¬ e.closing <:+: Text.lower text) ∨
      (e.isLeaf = false ∧ e.isRaw = false ∧ children.WellFormed) :=
  (wellFormed_element_iff.1 h).2.2

theorem grow_tokens {forest : Forest} (h : forest.WellFormed) (later : List Token)
    (opened : List Text) :
    grow (forest.tokens ++ later) opened =
      (forest.append (grow later opened).1, (grow later opened).2) := by
  induction forest generalizing later opened with
  | nil => rfl
  | leaf l next ih => rw [tokens, List.cons_append, grow, ih h.2, append]
  | element e children next ihc ihn =>
    have hn := ihn h.2.2
    rcases h.content_cases with ⟨hl, rfl⟩ | ⟨hl, hr, text, rfl, -⟩ | ⟨hl, hr, hc⟩
    · have hl' : (e.isLeaf || e.isRaw) = true := by simp [hl]
      rw [tokens, if_pos hl', List.append_assoc, List.singleton_append, grow, hn]
      rfl
    · have hl' : (e.isLeaf || e.isRaw) = true := by simp [hr]
      rw [tokens, if_pos hl', List.append_assoc, List.singleton_append, grow, hn,
        content_ofContent]
      rfl
    · have hl' : ¬ (e.isLeaf || e.isRaw) = true := by simp [hl, hr]
      have hi : (e.name :: opened).idxOf? e.name = some 0 := by
        simp [List.idxOf?, List.findIdx?_cons]
      rw [tokens, if_neg hl', List.append_assoc, List.cons_append, grow, List.append_assoc, ihc hc,
        List.singleton_append, grow, hi]
      simp [hn, append]

theorem ofTokens_tokens {forest : Forest} (h : forest.WellFormed) :
    ofTokens forest.tokens = forest := by
  have hg := grow_tokens h [] []
  rw [List.append_nil] at hg
  rw [ofTokens, hg]
  exact append_nil forest

/-- A forest with the attribute values of its elements as they are written. -/
def escaped : Forest → Forest
  | nil => nil
  | leaf l next => leaf l next.escaped
  | element e children next => element e.escaped children.escaped next.escaped

@[simp] theorem escaped_ofContent (text : Text) : (ofContent text).escaped = ofContent text := by
  by_cases h : text = []
  · simp [ofContent, escaped, h]
  · simp [ofContent, escaped, h]

def leadsText : Forest → Bool
  | leaf l _ => l.isText
  | _ => false

/-- No two texts stand side by side. -/
def Apart : Forest → Prop
  | nil => True
  | leaf l next => (l.isText = true → next.leadsText = false) ∧ next.Apart
  | element _ children next => children.Apart ∧ next.Apart

/-- The attributes of every tag are apart. -/
def Separate : Forest → Prop
  | nil => True
  | leaf _ next => next.Separate
  | element e children next =>
    Attribute.Separate e.attributes ∧ children.Separate ∧ next.Separate

@[simp] theorem separate_ofContent (text : Text) : (ofContent text).Separate := by
  by_cases h : text = []
  · simp [ofContent, Separate, h]
  · simp [ofContent, Separate, h]

section
variable {e : Element} {rest : Text}

def leafEnding (e : Element) : Text := if e.selfClosing then " />".toList else ['>']

theorem wrap_leaf (h : e.isLeaf = true) : wrap e true [] = e.opening ++ leafEnding e := by
  by_cases hs : e.selfClosing = true
  · simp [wrap, leafEnding, hs]
  · have hv : e.isVoid = true := by simpa [Element.isLeaf, hs] using h
    simp [wrap, leafEnding, hs, hv]

theorem wrap_open (h : e.isLeaf = false) (empty : Bool) (content : Text) :
    wrap e empty content = e.opening ++ '>' :: (content ++ e.closing ++ ['>']) := by
  have hs : e.selfClosing = false := (Bool.or_eq_false_iff.1 h).1
  have hv : e.isVoid = false := (Bool.or_eq_false_iff.1 h).2
  simp [wrap, hs, hv, Element.closing]

theorem ending_leaf (e : Element) (rest : Text) :
    Ending (leafEnding e ++ rest) e.selfClosing rest := by
  by_cases hs : e.selfClosing = true
  · rw [leafEnding, if_pos hs, hs]
    exact ending_selfClose rest
  · rw [leafEnding, if_neg hs, Bool.eq_false_iff.2 hs]
    exact ending_close rest

theorem ending_open (h : e.isLeaf = false) (rest : Text) : Ending ('>' :: rest) e.selfClosing rest := by
  have hs : e.selfClosing = false := (Bool.or_eq_false_iff.1 h).1
  rw [hs]
  exact ending_close rest

theorem ofText_closing (h : e.WellFormed) (rest : Text) :
    Lead.ofText (e.closing ++ rest) ≠ .text := by
  obtain ⟨c, name, hn, hc⟩ := h.leading
  rw [Element.closing, hn, List.cons_append, List.cons_append, List.cons_append,
    Lead.ofText_stop hc]
  decide

theorem ofText_opening (h : e.WellFormed) (rest : Text) :
    Lead.ofText (e.opening ++ rest) ≠ .text := by
  obtain ⟨c, name, hn, hc⟩ := h.leading
  rw [Element.opening_eq, hn, List.cons_append, List.cons_append, List.cons_append,
    Lead.ofText_start hc]
  decide

end

/-- In front of markup or the end, a forest that begins with no text begins with markup or is the
end. -/
theorem lead_render {forest : Forest} {rest : Text} (hw : forest.WellFormed)
    (hl : forest.leadsText = false) (hr : rest = [] ∨ Lead.ofText rest ≠ .text) :
    forest.render ++ rest = [] ∨ Lead.ofText (forest.render ++ rest) ≠ .text := by
  cases forest with
  | nil => exact hr
  | leaf l next =>
    refine .inr ?_
    rw [render, List.append_assoc]
    cases l with
    | text content => cases hl
    | comment body => simp [Leaf.source, Lead.ofText]
    | declaration source =>
      obtain ⟨hs, -⟩ := hw.1
      refine Lead.ofText_append_ne_text ?_ _
      rw [Leaf.source, hs]
      decide
  | element e children next =>
    refine .inr ?_
    rw [render, List.append_assoc]
    obtain ⟨ending, he⟩ : ∃ ending, wrap e children.isEmpty children.render =
        e.opening ++ ending := by
      unfold wrap
      split
      · exact ⟨_, rfl⟩
      · split
        · exact ⟨_, rfl⟩
        · exact ⟨['>'] ++ children.render ++ ['<', '/'] ++ e.name ++ ['>'], by simp⟩
    rw [he, List.append_assoc]
    exact ofText_opening hw.1 _

end Forest

namespace Token

theorem all_of_scan {source rest : Text} {token : Token} (hs : source ≠ [])
    (h : scan source = .ok (token, rest)) : all source = (all rest).map (token :: ·) := by
  cases source with
  | nil => exact absurd rfl hs
  | cons c source =>
    rw [all]
    split
    · next he =>
      rw [h] at he
      cases he
    · next he =>
      rw [h] at he
      cases he
      rfl

theorem map_cons_map_append (result : Except (Fault × Text) (List Token)) (token : Token)
    (tokens : List Token) :
    (result.map (tokens ++ ·)).map (token :: ·) = result.map (token :: tokens ++ ·) := by
  cases result <;> rfl

theorem map_append_map_append (result : Except (Fault × Text) (List Token))
    (front back : List Token) :
    (result.map (back ++ ·)).map (front ++ ·) = result.map (front ++ back ++ ·) := by
  cases result with
  | error => rfl
  | ok tokens => exact congrArg Except.ok (List.append_assoc front back tokens).symm

section
variable {element : Element} (rest : Text)

theorem opening_ne_nil (element : Element) (ending : Text) : element.opening ++ ending ≠ [] :=
  List.cons_ne_nil _ _

theorem all_leaf (hw : element.WellFormed) (hs : Attribute.Separate element.attributes)
    (hl : element.isLeaf = true) :
    all (element.opening ++ (Forest.leafEnding element ++ rest)) =
      (all rest).map (complete element.escaped [] :: ·) := by
  have hscan := scan_opening_of_separate hw hs (Forest.ending_leaf element rest)
  rw [ofStart_leaf (by simpa using hl)] at hscan
  exact all_of_scan (opening_ne_nil _ _) hscan

theorem all_raw {content : Text} (hw : element.WellFormed)
    (hs : Attribute.Separate element.attributes) (hl : element.isLeaf = false)
    (hr : element.isRaw = true) (hc : ¬ element.closing <:+: Text.lower content) :
    all (element.opening ++ '>' :: (content ++ element.closing ++ '>' :: rest)) =
      (all rest).map (complete element.escaped content :: ·) := by
  have hscan := scan_opening_of_separate hw hs
    (Forest.ending_open hl (content ++ element.closing ++ '>' :: rest))
  have hraw : ofStart element.escaped (content ++ element.closing ++ '>' :: rest) =
      (complete element.escaped content, rest) := ofStart_raw rest hl hr hc
  rw [hraw] at hscan
  exact all_of_scan (opening_ne_nil _ _) hscan

theorem all_start (hw : element.WellFormed) (hs : Attribute.Separate element.attributes)
    (hl : element.isLeaf = false) (hr : element.isRaw = false) :
    all (element.opening ++ '>' :: rest) = (all rest).map (start element.escaped :: ·) := by
  have hscan := scan_opening_of_separate hw hs (Forest.ending_open hl rest)
  rw [ofStart_start (by simpa using hl) (by simpa using hr)] at hscan
  exact all_of_scan (opening_ne_nil _ _) hscan

theorem all_stop (hw : element.WellFormed) :
    all (element.closing ++ '>' :: rest) = (all rest).map (stop element.name :: ·) :=
  all_of_scan (List.cons_ne_nil _ _) (scan_stop hw)

end

/-- A printed forest is read as its tokens, in front of markup or at the end. -/
theorem all_render {forest : Forest} {rest : Text} (hw : forest.WellFormed) (ha : forest.Apart)
    (hs : forest.Separate) (hr : rest = [] ∨ Lead.ofText rest ≠ .text) :
    all (forest.render ++ rest) = (all rest).map (forest.escaped.tokens ++ ·) := by
  induction forest generalizing rest with
  | nil => cases h : all rest <;> simp [Forest.render, Forest.escaped, Forest.tokens, h, Except.map]
  | leaf l next ih =>
    have hn : ∀ content, l = .text content →
        next.render ++ rest = [] ∨ Lead.ofText (next.render ++ rest) ≠ .text := by
      rintro content rfl
      exact Forest.lead_render hw.2 (ha.1 rfl) hr
    have hne : l.source ++ (next.render ++ rest) ≠ [] := fun he =>
      Leaf.source_ne_nil hw.1 (List.append_eq_nil_iff.1 he).1
    rw [Forest.render, List.append_assoc, all_of_scan hne (scan_source hw.1 hn),
      ih hw.2 ha.2 hs hr, map_cons_map_append]
    rfl
  | element e children next ihc ihn =>
    have hn := ihn hw.2.2 ha.2 hs.2.2 hr
    rw [Forest.render, List.append_assoc]
    rcases hw.content_cases with ⟨hl, rfl⟩ | ⟨hl, hraw, text, rfl, ht⟩ | ⟨hl, hraw, hc⟩
    · have hw' := all_leaf (next.render ++ rest) hw.1 hs.1 hl
      rw [Forest.isEmpty, Forest.render, Forest.wrap_leaf hl, List.append_assoc, hw', hn,
        map_cons_map_append]
      simp [Forest.escaped, Forest.tokens, hl, Forest.content]
    · have hw' := all_raw (next.render ++ rest) hw.1 hs.1 hl hraw ht
      have hp : e.opening ++ '>' :: (text ++ e.closing ++ ['>']) ++ (next.render ++ rest) =
          e.opening ++ '>' :: (text ++ e.closing ++ '>' :: (next.render ++ rest)) := by simp
      rw [Forest.render_ofContent, Forest.wrap_open hl, hp, hw', hn, map_cons_map_append]
      simp [Forest.escaped, Forest.tokens, hl, hraw]
    · have hw' := all_start (children.render ++ (e.closing ++ '>' :: (next.render ++ rest)))
        hw.1 hs.1 hl hraw
      have hp : e.opening ++ '>' :: (children.render ++ e.closing ++ ['>']) ++
          (next.render ++ rest) =
            e.opening ++ '>' :: (children.render ++ (e.closing ++ '>' :: (next.render ++ rest))) := by
        simp
      rw [Forest.wrap_open hl, hp, hw',
        ihc hc ha.1 hs.2.1 (.inr (Forest.ofText_closing hw.1 _)), all_stop _ hw.1, hn,
        map_cons_map_append, map_cons_map_append, map_append_map_append]
      simp [Forest.escaped, Forest.tokens, hl, hraw]

end Token
end MailTemplate
