import MailTemplate.Proofs.Guard.Parts
import MailTemplate.Proofs.Markup.Reparse
import MailTemplate.Proofs.Markup.WordsKept

/-! What becomes of every part of a text of markup. A text that is read lies in the parts of its nodes
and in what the reader passes over, with nothing between them but the marks of the markup itself and
the names of its elements. -/

namespace MailTemplate
open Guard

/-- The name and the value, as they are read. -/
def Attribute.parts (attr : Attribute) : List Text := attr.name :: attr.value.toList

/-- The texts of a node: the names and values of its attributes, or a leaf as it is written. -/
def NodeData.parts : NodeData → List Text
  | document => []
  | element e => e.attributes.flatMap Attribute.parts
  | leaf l => [l.source]

def Element.HasPlainName (element : Element) : Prop := '{' ∉ element.name ∧ opener ∉ element.name

instance (element : Element) : Decidable element.HasPlainName :=
  inferInstanceAs (Decidable ('{' ∉ element.name ∧ opener ∉ element.name))

namespace Token

/-- The text up to the next closing brace; all of it where there is none. -/
def beforeBrace (source : Text) : Text := (Text.cut? ['>'] source).elim source (·.1)

/-- What is passed over behind the content of an element: the end tag of a raw one. -/
def passedBehind (element : Element) (rest : Text) : Text :=
  if element.selfClosing || element.isVoid then []
  else if element.isRaw then beforeBrace (rawContent element.name rest).2
  else []

/-- What is passed over in reading the token at the front: an end tag, up to its closing brace. -/
def passed (source : Text) : Text :=
  match Lead.ofText source with
  | .stop => beforeBrace source
  | .start => (attributes? ((source.drop 1).dropWhile isNameChar)).elim []
      fun (attributes, selfClosing, rest) =>
        passedBehind
          ⟨Text.lower ((source.drop 1).takeWhile isNameChar), attributes, selfClosing⟩ rest
  | _ => []

/-- What is passed over in reading all tokens, in order. -/
def passedAll (source : Text) : List Text :=
  match source with
  | [] => []
  | c :: source => match _ : scan (c :: source) with
    | .error _ => []
    | .ok (_, rest) => passed (c :: source) :: passedAll rest
termination_by source.length
decreasing_by
  rename_i h
  exact length_scan_lt h

def HasPlainName : Token → Prop
  | complete e _ => e.HasPlainName
  | start e => e.HasPlainName
  | _ => True

end Token

def Takes (words : Text → Prop) (parts : List Text) (source rest : Text) : Prop :=
  ∃ lexeme, source = lexeme ++ rest ∧ Laid words parts lexeme

section
variable {words names : Text → Prop} {parts more : List Text} {source rest last : Text}

theorem Takes.trans (h : Takes words parts source rest) (hr : Takes words more rest last) :
    Takes words (parts ++ more) source last := by
  obtain ⟨lexeme, rfl, hl⟩ := h
  obtain ⟨lexeme', rfl, hl'⟩ := hr
  exact ⟨lexeme ++ lexeme', (List.append_assoc _ _ _).symm, hl.append hl'⟩

theorem takes_refl (source : Text) : Takes words [] source source := ⟨[], rfl, .nil⟩

theorem takes_cons {c : Char} (hb : c ≠ '{') (ho : c ≠ opener) (rest : Text) :
    Takes words [] (c :: rest) rest := ⟨[c], rfl, .between hb ho .nil⟩

theorem takes_part {part : Text} (h : Guard.Sound words part) (rest : Text) :
    Takes words [part] (part ++ rest) rest := ⟨part, rfl, .of_part h⟩

theorem takes_of_notMem {part : Text} (hb : '{' ∉ part) (ho : opener ∉ part) (rest : Text) :
    Takes words [] (part ++ rest) rest := ⟨part, rfl, laid_of_notMem hb ho⟩

theorem takes_dropSpace (source : Text) : Takes words [] source (Text.dropSpace source) := by
  have hspace : ∀ c ∈ Text.spaceOf source, Text.isSpace c = true := fun c hc =>
    List.mem_takeWhile_imp hc
  refine ⟨Text.spaceOf source, (Text.spaceOf_append_dropSpace source).symm, laid_of_notMem ?_ ?_⟩
  · intro hm
    exact absurd (hspace _ hm) (by decide)
  · intro hm
    exact absurd (hspace _ hm) (by decide)

namespace Attribute

theorem nameAndRest_append_eq {c : Char} (hs : Text.isSpace c = false) (hg : c ≠ '>')
    (hd : c ≠ '/') (source : Text) :
    (nameAndRest (c :: source)).1 ++ (nameAndRest (c :: source)).2 = c :: source := by
  unfold nameAndRest
  split
  · next ht =>
    have hc : c = '=' := by
      by_contra hne
      have hname : isNameChar c = true := by simp [isNameChar, hs, hg, hd, hne]
      rw [List.takeWhile_cons_of_pos hname] at ht
      cases ht
    rw [hc]
    rfl
  · exact List.takeWhile_append_dropWhile

end Attribute

variable (hw : ∀ word, words word → IsWord word)
include hw

theorem takes_value? {value : Text} (h : Guard.Sound words source)
    (hv : Attribute.value? source = some (value, rest)) : Takes words [value] source rest := by
  have hvalue := (sound_value? hw h hv).1
  unfold Attribute.value? at hv
  split at hv
  · next source =>
    have hcut := Text.eq_append_of_cut? hv
    have htake : Takes words [value] (value ++ '"' :: rest) rest :=
      (takes_part hvalue _).trans (takes_cons (by decide) (by decide) rest)
    rw [List.append_assoc] at hcut
    rw [hcut]
    exact (takes_cons (by decide) (by decide) _).trans htake
  · next source =>
    have hcut := Text.eq_append_of_cut? hv
    have htake : Takes words [value] (value ++ '\'' :: rest) rest :=
      (takes_part hvalue _).trans (takes_cons (by decide) (by decide) rest)
    rw [List.append_assoc] at hcut
    rw [hcut]
    exact (takes_cons (by decide) (by decide) _).trans htake
  · cases hv
    exact ⟨_, List.takeWhile_append_dropWhile.symm, .of_part hvalue⟩

theorem takes_scan? {c : Char} {attr : Attribute} (hs : Text.isSpace c = false) (hg : c ≠ '>')
    (hd : c ≠ '/') (h : Guard.Sound words (c :: source))
    (ha : Attribute.scan? (c :: source) = some (attr, rest)) :
    Takes words attr.parts (c :: source) rest := by
  obtain ⟨hname, hrest⟩ := sound_nameAndRest hw h
  have hfirst : Takes words [(Attribute.nameAndRest (c :: source)).1] (c :: source)
      (Text.dropSpace (Attribute.nameAndRest (c :: source)).2) := by
    have hp := takes_part hname (Attribute.nameAndRest (c :: source)).2
    rw [Attribute.nameAndRest_append_eq hs hg hd] at hp
    exact hp.trans (takes_dropSpace _)
  have hsound := sound_dropSpace hw hrest
  simp only [Attribute.scan?] at ha
  split at ha
  · next after hafter =>
    rw [hafter] at hfirst hsound
    obtain ⟨⟨value, last⟩, hv, he⟩ := Option.map_eq_some_iff.1 ha
    cases he
    have hvalue := takes_value? hw (sound_dropSpace hw (hsound.tail hw (by decide))) hv
    have heq : Takes words [] ('=' :: after) (Text.dropSpace after) :=
      (takes_cons (by decide) (by decide) after).trans (takes_dropSpace after)
    exact hfirst.trans (heq.trans hvalue)
  · cases ha
    exact hfirst

theorem takes_attributes? {attributes : List Attribute} {selfClosing : Bool}
    (h : Guard.Sound words source)
    (ha : attributes? source = some (attributes, selfClosing, rest)) :
    Takes words (attributes.flatMap Attribute.parts) source rest := by
  have hd := sound_dropSpace hw h
  have hspace : Takes words [] source (Text.dropSpace source) := takes_dropSpace source
  fun_induction attributes? source generalizing attributes selfClosing rest with
  | case1 => cases ha
  | case2 source r hs =>
    cases ha
    rw [hs] at hspace
    exact hspace.trans (takes_cons (by decide) (by decide) _)
  | case3 source r hs =>
    cases ha
    rw [hs] at hspace
    exact hspace.trans ((takes_cons (by decide) (by decide) _).trans
      (takes_cons (by decide) (by decide) _))
  | case4 source r _ hs ih =>
    rw [hs] at hd hspace
    have hr := hd.tail hw (by decide)
    have htake := ih hr ha (sound_dropSpace hw hr) (takes_dropSpace r)
    exact hspace.trans ((takes_cons (by decide) (by decide) r).trans htake)
  | case5 => cases ha
  | case6 source c r hg _ hslash hs attr r' hscan ih =>
    obtain ⟨⟨as, sc, r''⟩, hr, he⟩ := Option.map_eq_some_iff.1 ha
    cases he
    rw [hs] at hd hspace
    have hscanned := takes_scan? hw (Text.isSpace_of_dropSpace hs) hg hslash hd hscan
    have hr' := (sound_scan? hw hd hscan).2
    have hlater := ih hr' hr (sound_dropSpace hw hr') (takes_dropSpace r')
    exact hspace.trans (hscanned.trans hlater)

theorem sound_cut?_before {before : Text} (h : Guard.Sound words source)
    (hc : Text.cut? ['>'] source = some (before, rest)) : Guard.Sound words before := by
  have hbrace : Stops '>' ∧ Starts '>' := stops_of_mem (by decide)
  refine (h.cut? hw hc (fun c hm => ?_) (fun c hm => ?_) (List.cons_ne_nil _ _)).1
  · rw [← Option.some.inj hm]
    exact hbrace.1
  · rw [← Option.some.inj hm]
    exact hbrace.2

theorem takes_beforeBrace (h : Guard.Sound words source) :
    Takes words [Token.beforeBrace source] source (Token.afterBrace source) := by
  unfold Token.beforeBrace Token.afterBrace
  cases hc : Text.cut? ['>'] source with
  | none =>
    have hp := takes_part h []
    rwa [List.append_nil] at hp
  | some cut =>
    obtain ⟨before, rest⟩ := cut
    have hp := takes_part (sound_cut?_before hw h hc) ('>' :: rest)
    have hcut := Text.eq_append_of_cut? hc
    rw [List.append_assoc] at hcut
    rw [List.singleton_append] at hcut
    rw [← hcut] at hp
    exact hp.trans (takes_cons (by decide) (by decide) rest)

omit hw in
theorem takes_content {content : Text} (h : Guard.Sound words content) (rest : Text) :
    Takes words ((Forest.ofContent content).labels.flatMap NodeData.parts) (content ++ rest)
      rest := by
  unfold Forest.ofContent
  by_cases hc : content = []
  · rw [if_pos hc, hc]
    exact takes_refl rest
  · rw [if_neg hc]
    exact takes_part h rest

theorem takes_ofStart (element : Element) (h : Guard.Sound words rest) :
    ∃ content, (Token.ofStart element rest).1.labels = .element element :: content ∧
      Takes words (content.flatMap NodeData.parts ++ [Token.passedBehind element rest]) rest
        (Token.ofStart element rest).2 := by
  have hnone : Takes words [([] : Text)] rest rest := takes_part .nil rest
  unfold Token.ofStart Token.passedBehind
  by_cases hleaf : (element.selfClosing || element.isVoid) = true
  · rw [if_pos hleaf, if_pos hleaf]
    exact ⟨[], rfl, hnone⟩
  · rw [if_neg hleaf, if_neg hleaf]
    by_cases hraw : element.isRaw = true
    · rw [if_pos hraw, if_pos hraw]
      obtain ⟨hcontent, hrest⟩ := sound_rawContent hw element.name h
      have hwhole : (Token.rawContent element.name rest).1 ++
          (Token.rawContent element.name rest).2 = rest := by
        unfold Token.rawContent
        split
        · exact List.take_append_drop _ _
        · exact List.append_nil _
      have htake := takes_content hcontent (Token.rawContent element.name rest).2
      rw [hwhole] at htake
      exact ⟨_, rfl, htake.trans (takes_beforeBrace hw hrest)⟩
    · rw [if_neg hraw, if_neg hraw]
      exact ⟨[], rfl, hnone⟩

omit hw in
theorem Token.stopTag_eq {c : Char} {token : Token}
    (h : Token.stopTag (c :: source) = .ok (token, rest)) :
    (∃ name, token = .stop name) ∧ rest = Token.afterBrace ('<' :: '/' :: c :: source) := by
  unfold Token.stopTag at h
  split at h
  · cases h
  · next before after hc =>
    cases h
    refine ⟨⟨_, rfl⟩, ?_⟩
    have hname : '>' ∉ (c :: source).takeWhile isStopChar := by
      intro hm
      exact absurd (List.mem_takeWhile_imp hm) (by decide)
    have hbefore : '>' ∉ before := by
      have hi := Text.not_infix_of_cut? (List.cons_ne_nil _ _) hc
      rwa [List.singleton_infix_iff] at hi
    have hsource : '<' :: '/' :: c :: source =
        ('<' :: '/' :: ((c :: source).takeWhile isStopChar ++ before)) ++ '>' :: rest := by
      have hs := List.takeWhile_append_dropWhile (p := isStopChar) (l := c :: source)
      rw [Text.eq_append_of_cut? hc] at hs
      simpa using hs.symm
    have hnot : '>' ∉ '<' :: '/' :: ((c :: source).takeWhile isStopChar ++ before) := by
      simp [hname, hbefore]
    rw [Token.afterBrace, hsource, Text.cut?_singleton_append _ hnot]
    rfl

omit hw in
theorem Token.hasPlainName_ofStart (element : Element) (rest : Text) :
    (Token.ofStart element rest).1.HasPlainName ↔ element.HasPlainName := by
  unfold Token.ofStart
  split
  · rfl
  · split <;> rfl

theorem takes_startTag {token : Token} (h : Guard.Sound words source)
    (hs : Token.startTag source = .ok (token, rest)) (hname : token.HasPlainName) :
    Takes words (token.labels.flatMap NodeData.parts ++
      [(attributes? (source.dropWhile Token.isNameChar)).elim []
        fun (attributes, selfClosing, rest) => Token.passedBehind
          ⟨Text.lower (source.takeWhile Token.isNameChar), attributes, selfClosing⟩ rest])
      source rest := by
  have hd := (h.dropWhile hw (p := Token.isNameChar) (.inl fun c hc =>
    Token.stops_of_not_isNameChar hc)).2
  unfold Token.startTag at hs
  split at hs
  · cases hs
  · next attributes selfClosing after ha =>
    have hstart : Token.ofStart
        ⟨Text.lower (source.takeWhile Token.isNameChar), attributes, selfClosing⟩ after =
          (token, rest) := Except.ok.inj hs
    have htoken : token = (Token.ofStart _ after).1 := (congrArg Prod.fst hstart).symm
    have hrest : rest = (Token.ofStart _ after).2 := (congrArg Prod.snd hstart).symm
    rw [htoken, Token.hasPlainName_ofStart] at hname
    obtain ⟨hb, ho⟩ := hname
    rw [Text.mem_lower_iff (by decide)] at hb ho
    have hopening : Takes words [] (source.takeWhile Token.isNameChar ++
        source.dropWhile Token.isNameChar) (source.dropWhile Token.isNameChar) :=
      takes_of_notMem hb ho _
    rw [List.takeWhile_append_dropWhile] at hopening
    have hattributes := takes_attributes? hw hd ha
    obtain ⟨content, hlabels, hcontent⟩ := takes_ofStart hw
      ⟨Text.lower (source.takeWhile Token.isNameChar), attributes, selfClosing⟩
      (sound_attributes? hw hd ha).2
    rw [htoken, hlabels, hrest, ha, List.flatMap_cons, List.append_assoc]
    exact hopening.trans (hattributes.trans hcontent)

theorem takes_scan {token : Token} (h : Guard.Sound words source)
    (hscan : Token.scan source = .ok (token, rest)) (hname : token.HasPlainName) :
    Takes words (token.labels.flatMap NodeData.parts ++ [Token.passed source]) source rest := by
  have hsound : token.Sound words (fun _ => True) := (sound_scan hw (fun _ _ => trivial) h hscan).1
  unfold Token.passed
  unfold Token.scan at hscan
  split at hscan
  · next hl =>
    rw [hl]
    split at hscan
    · cases hscan
    · next body after hc =>
      cases hscan
      obtain ⟨inner, rfl⟩ := Lead.ofText_eq_comment_iff.1 hl
      have hinner : inner = body ++ "-->".toList ++ rest := Text.eq_append_of_cut? hc
      have hsource : "<!--".toList ++ inner = (Leaf.comment body).source ++ rest := by
        simp [hinner, Leaf.source]
      rw [hsource]
      exact (takes_part hsound rest).trans (takes_part .nil rest)
  · next hl =>
    rw [hl]
    split at hscan
    · cases hscan
    · next before after hc =>
      cases hscan
      rw [Text.eq_append_of_cut? hc]
      exact (takes_part hsound rest).trans (takes_part .nil rest)
  · next hl =>
    rw [hl]
    obtain ⟨c, after, rfl, -⟩ := Lead.ofText_eq_stop_iff.1 hl
    obtain ⟨⟨name, rfl⟩, rfl⟩ := Token.stopTag_eq hscan
    exact takes_beforeBrace hw h
  · next hl =>
    rw [hl]
    obtain ⟨c, after, rfl, -⟩ := Lead.ofText_eq_start_iff.1 hl
    have hbrace : Takes words [] ('<' :: c :: after) (c :: after) :=
      takes_cons (by decide) (by decide) _
    exact hbrace.trans (takes_startTag hw (h.tail hw (by decide)) hscan hname)
  · next hl =>
    rw [hl]
    cases hscan
    have hp := (takes_part hsound (plainText source).2).trans (takes_part .nil (plainText source).2)
    have hsource : (Leaf.text (plainText source).1).source ++ (plainText source).2 = source :=
      plainText_append source
    rw [hsource] at hp
    exact hp

omit hw in
theorem Token.passedAll_cons {c : Char} {token : Token}
    (h : Token.scan (c :: source) = .ok (token, rest)) :
    Token.passedAll (c :: source) = Token.passed (c :: source) :: Token.passedAll rest := by
  rw [Token.passedAll]
  split
  · next he =>
    rw [h] at he
    cases he
  · next he =>
    rw [h] at he
    cases he
    rfl

/-- A text that is read lies in the parts of its nodes and in what is passed over. -/
theorem laid_all {tokens : List Token} (h : Guard.Sound words source)
    (ha : Token.all source = .ok tokens) (hnames : ∀ token ∈ tokens, token.HasPlainName) :
    ∃ parts, Laid words parts source ∧
      parts.Perm ((tokens.flatMap Token.labels).flatMap NodeData.parts ++
        Token.passedAll source) := by
  fun_induction Token.all source generalizing tokens with
  | case1 =>
    cases ha
    refine ⟨[], .nil, ?_⟩
    rw [Token.passedAll]
    exact .refl _
  | case2 => cases ha
  | case3 c source token rest hscan ih =>
    have hboth : token.Sound words (fun _ => True) ∧ Guard.Sound words rest :=
      sound_scan hw (fun _ _ => trivial) h hscan
    cases hr : Token.all rest with
    | error fault =>
      rw [hr] at ha
      cases ha
    | ok later =>
      rw [hr] at ha
      cases ha
      obtain ⟨lexeme, hsource, hlexeme⟩ := takes_scan hw h hscan (hnames _ List.mem_cons_self)
      obtain ⟨parts, hparts, hperm⟩ := ih hboth.2 hr fun t hm => hnames t (List.mem_cons_of_mem _ hm)
      have hlaid := hlexeme.append hparts
      rw [← hsource] at hlaid
      refine ⟨_, hlaid, ?_⟩
      rw [Token.passedAll_cons hscan, List.flatMap_cons, List.flatMap_append]
      have hswap : ([Token.passed (c :: source)] ++
          (later.flatMap Token.labels).flatMap NodeData.parts).Perm
            ((later.flatMap Token.labels).flatMap NodeData.parts ++
              [Token.passed (c :: source)]) := List.perm_append_comm
      have hmove := hswap.append_right (Token.passedAll rest)
      rw [List.append_assoc, List.append_assoc] at hmove
      rw [List.append_assoc, List.append_assoc]
      exact ((hperm.append_left _).trans hmove).append_left _

end
end MailTemplate
