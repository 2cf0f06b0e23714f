import MailTemplate.Markup.Element

/-! Tokens of markup. Any text that does not begin a comment, a declaration or a tag is plain text;
only a construct that breaks off before its end is a fault. -/

namespace MailTemplate

/-- A node without children: text, the body of a comment, or a declaration as it is written. -/
inductive Leaf where
  | text (content : Text)
  | comment (body : Text)
  | declaration (source : Text)
  deriving Repr, DecidableEq

def Leaf.source : Leaf → Text
  | text content => content
  | comment body => "<!--".toList ++ body ++ "-->".toList
  | declaration source => source

/-- A token. An element that has no end tag of its own to wait for, because it is void,
self-closing or raw, comes complete with its text. -/
inductive Token where
  | leaf (leaf : Leaf)
  | complete (element : Element) (content : Text)
  | start (element : Element)
  | stop (name : Text)
  deriving Repr, DecidableEq

inductive Fault where
  | tag
  | comment
  deriving Repr, DecidableEq

inductive Lead where
  | comment
  | declaration
  | stop
  | start
  | text
  deriving Repr, DecidableEq

/-- A tag needs a letter next to its brace; without it the brace is plain text. -/
def Lead.ofText : Text → Lead
  | '<' :: '!' :: '-' :: '-' :: _ => comment
  | '<' :: '!' :: _ => declaration
  | '<' :: '?' :: _ => declaration
  | '<' :: '/' :: c :: _ => if c.isAlpha then stop else text
  | '<' :: c :: _ => if c.isAlpha then start else text
  | _ => text

def plainText : Text → Text × Text
  | [] => ([], [])
  | c :: source =>
    if Lead.ofText (c :: source) = .text then
      let (content, rest) := plainText source
      (c :: content, rest)
    else ([], c :: source)

theorem plainText_append (source : Text) :
    (plainText source).1 ++ (plainText source).2 = source := by
  induction source with
  | nil => rfl
  | cons c source ih =>
    simp only [plainText]
    split
    · simp [ih]
    · rfl

namespace Attribute

def isNameChar (c : Char) : Bool := !Text.isSpace c && c != '=' && c != '>' && c != '/'

def isBareChar (c : Char) : Bool := !Text.isSpace c && c != '>'

/-- The name at the front; where there is none, the next character, a stray `=`, serves as one. -/
def nameAndRest (source : Text) : Text × Text :=
  match source.takeWhile isNameChar with
  | [] => (['='], source.drop 1)
  | name => (name, source.dropWhile isNameChar)

/-- The value at the front: up to the same quote, or, without quotes, a run of other characters.
There is none where the closing quote is missing. -/
def value? : Text → Option (Text × Text)
  | '"' :: source => Text.cut? ['"'] source
  | '\'' :: source => Text.cut? ['\''] source
  | source => some (source.takeWhile isBareChar, source.dropWhile isBareChar)

def scan? (source : Text) : Option (Attribute × Text) :=
  let (name, rest) := nameAndRest source
  match Text.dropSpace rest with
  | '=' :: rest =>
    (value? (Text.dropSpace rest)).map fun (value, rest) => (⟨name, some value⟩, rest)
  | rest => some (⟨name, none⟩, rest)

theorem length_nameAndRest_lt (c : Char) (source : Text) :
    (nameAndRest (c :: source)).2.length < (c :: source).length := by
  simp only [nameAndRest]
  split
  · simp
  · next h =>
    have hs := congrArg List.length
      (List.takeWhile_append_dropWhile (p := isNameChar) (l := c :: source))
    have hp := List.length_pos_iff.2 h
    simp only [List.length_append] at hs
    show (List.dropWhile _ _).length < _
    omega

theorem length_value?_le {source value rest : Text} (h : value? source = some (value, rest)) :
    rest.length ≤ source.length := by
  unfold value? at h
  split at h
  · rw [Text.eq_append_of_cut? h]
    simp
    omega
  · rw [Text.eq_append_of_cut? h]
    simp
    omega
  · cases h
    exact Text.length_dropWhile_le _ _

theorem length_scan?_lt {c : Char} {source rest : Text} {attr : Attribute}
    (h : scan? (c :: source) = some (attr, rest)) : rest.length < (c :: source).length := by
  have hn := length_nameAndRest_lt c source
  have hd := Text.length_dropSpace_le (nameAndRest (c :: source)).2
  simp only [scan?] at h
  split at h
  · next r hr =>
    obtain ⟨⟨v, r'⟩, hv, he⟩ := Option.map_eq_some_iff.1 h
    cases he
    have hl : r'.length ≤ _ := length_value?_le hv
    have hs := Text.length_dropSpace_le r
    rw [hr, List.length_cons] at hd
    show r'.length < _
    omega
  · cases h
    omega

end Attribute

/-- The rest of a start tag after its name: the attributes, whether the tag closes itself, and the
text after the tag. A slash that does not close the tag is passed over. -/
def attributes? (source : Text) : Option (List Attribute × Bool × Text) :=
  match _ : Text.dropSpace source with
  | [] => none
  | '>' :: rest => some ([], false, rest)
  | '/' :: '>' :: rest => some ([], true, rest)
  | '/' :: rest => attributes? rest
  | c :: rest =>
    match _ : Attribute.scan? (c :: rest) with
    | none => none
    | some (attr, rest) =>
      (attributes? rest).map fun (attributes, selfClosing, rest) =>
        (attr :: attributes, selfClosing, rest)
termination_by source.length
decreasing_by
  · rename_i hd
    have hl := Text.length_dropSpace_le source
    rw [hd] at hl
    exact Nat.lt_of_lt_of_le (Nat.lt_succ_self _) hl
  · rename_i _ hd hs
    have hl := Text.length_dropSpace_le source
    rw [hd] at hl
    exact Nat.lt_of_lt_of_le (Attribute.length_scan?_lt hs) hl

namespace Token

def isNameChar (c : Char) : Bool := !Text.isSpace c && c != '/' && c != '>'

def isStopChar (c : Char) : Bool := !Text.isSpace c && c != '>'

/-- The content of a raw element up to its end tag in any case, and the text from that tag on. -/
def rawContent (name source : Text) : Text × Text :=
  match Text.cut? ('<' :: '/' :: name) (Text.lower source) with
  | some (before, _) => (source.take before.length, source.drop before.length)
  | none => (source, [])

/-- The text after the next closing brace; nothing is left where there is none. -/
def afterBrace (source : Text) : Text := (Text.cut? ['>'] source).elim [] (·.2)

def ofStart (element : Element) (rest : Text) : Token × Text :=
  if element.selfClosing || element.isVoid then (complete element [], rest)
  else if element.isRaw then
    let (content, rest) := rawContent element.name rest
    (complete element content, afterBrace rest)
  else (start element, rest)

def startTag (source : Text) : Except Fault (Token × Text) :=
  match attributes? (source.dropWhile isNameChar) with
  | none => .error .tag
  | some (attributes, selfClosing, rest) =>
    .ok (ofStart ⟨Text.lower (source.takeWhile isNameChar), attributes, selfClosing⟩ rest)

/-- An end tag, after its opening brace and slash. What follows the name is passed over. -/
def stopTag (source : Text) : Except Fault (Token × Text) :=
  match Text.cut? ['>'] (source.dropWhile isStopChar) with
  | none => .error .tag
  | some (_, rest) => .ok (stop (Text.lower (source.takeWhile isStopChar)), rest)

def scan (source : Text) : Except Fault (Token × Text) :=
  match Lead.ofText source with
  | .comment => match Text.cut? "-->".toList (source.drop 4) with
    | none => .error .comment
    | some (body, rest) => .ok (leaf (.comment body), rest)
  | .declaration => match Text.cut? ['>'] source with
    | none => .error .tag
    | some (before, rest) => .ok (leaf (.declaration (before ++ ['>'])), rest)
  | .stop => stopTag (source.drop 2)
  | .start => startTag (source.drop 1)
  | .text => .ok (leaf (.text (plainText source).1), (plainText source).2)

theorem length_attributes?_le {source rest : Text} {attributes : List Attribute}
    {selfClosing : Bool} (h : attributes? source = some (attributes, selfClosing, rest)) :
    rest.length ≤ source.length := by
  have hd := Text.length_dropSpace_le source
  fun_induction attributes? source generalizing attributes selfClosing rest with
  | case1 => simp at h
  | case2 source r hs =>
    cases h
    rw [hs] at hd
    exact Nat.le_of_succ_le hd
  | case3 source r hs =>
    cases h
    rw [hs] at hd
    exact Nat.le_of_succ_le (Nat.le_of_succ_le hd)
  | case4 source r _ hs ih =>
    have := ih h (Text.length_dropSpace_le r)
    rw [hs, List.length_cons] at hd
    omega
  | case5 => simp at h
  | case6 source c r _ _ _ hs attr r' ha ih =>
    obtain ⟨⟨as, sc, r''⟩, hr, he⟩ := Option.map_eq_some_iff.1 h
    cases he
    have := ih hr (Text.length_dropSpace_le r')
    have := Attribute.length_scan?_lt ha
    rw [hs] at hd
    omega

theorem length_afterBrace_le (source : Text) : (afterBrace source).length ≤ source.length := by
  unfold afterBrace
  cases h : Text.cut? ['>'] source with
  | none => simp
  | some p =>
    obtain ⟨before, rest⟩ := p
    conv => rhs; rw [Text.eq_append_of_cut? h]
    simp
    omega

theorem length_rawContent_le (name source : Text) :
    (rawContent name source).2.length ≤ source.length := by
  unfold rawContent
  split <;> simp

theorem length_ofStart_le (element : Element) (rest : Text) :
    (ofStart element rest).2.length ≤ rest.length := by
  unfold ofStart
  split
  · exact Nat.le_refl _
  · split
    · exact Nat.le_trans (length_afterBrace_le _) (length_rawContent_le _ _)
    · exact Nat.le_refl _

theorem length_scan_lt {c : Char} {source rest : Text} {token : Token}
    (h : scan (c :: source) = .ok (token, rest)) : rest.length < (c :: source).length := by
  unfold scan at h
  split at h
  · split at h
    · cases h
    · next hc =>
      cases h
      have hl := congrArg List.length (Text.eq_append_of_cut? hc)
      simp only [List.length_append, List.length_drop, List.length_cons] at hl ⊢
      have : "-->".toList.length = 3 := by decide
      omega
  · split at h
    · cases h
    · next hc =>
      cases h
      rw [Text.eq_append_of_cut? hc]
      simp
      omega
  · unfold stopTag at h
    split at h
    · cases h
    · next hc =>
      cases h
      have hl := congrArg List.length (Text.eq_append_of_cut? hc)
      have hd := Text.length_dropWhile_le isStopChar ((c :: source).drop 2)
      simp only [List.length_append, List.length_drop, List.length_cons, List.length_nil] at hl hd ⊢
      omega
  · unfold startTag at h
    split at h
    · cases h
    · next attributes selfClosing r ha =>
      have hl := length_attributes?_le ha
      have hd := Text.length_dropWhile_le isNameChar ((c :: source).drop 1)
      have ho : rest.length ≤ r.length := by
        have ho := length_ofStart_le
          ⟨Text.lower (((c :: source).drop 1).takeWhile isNameChar), attributes, selfClosing⟩ r
        rwa [Except.ok.inj h] at ho
      simp only [List.length_drop, List.length_cons] at hl hd ⊢
      omega
  · next hl =>
    simp only [Except.ok.injEq, Prod.mk.injEq] at h
    have hp := congrArg List.length (plainText_append (c :: source))
    have hn : (plainText (c :: source)).1 ≠ [] := by simp [plainText, hl]
    have := List.length_pos_iff.2 hn
    rw [← h.2]
    simp only [List.length_append] at hp
    omega

/-- All tokens of a text, or the fault and the text from its beginning on. -/
def all (source : Text) : Except (Fault × Text) (List Token) :=
  match source with
  | [] => .ok []
  | c :: source => match _ : scan (c :: source) with
    | .error fault => .error (fault, c :: source)
    | .ok (token, rest) => (all rest).map (token :: ·)
termination_by source.length
decreasing_by
  rename_i h
  exact length_scan_lt h

end Token
end MailTemplate
