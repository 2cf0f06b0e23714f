import MailTemplate.Proofs.Style.Comments
import MailTemplate.Proofs.Style.Statements
import MailTemplate.Proofs.Style.WordsStyled

/-! Stylesheets that are read one after the other, or joined by semicolons and read at once. A semicolon
ends whatever a stylesheet leaves open at its end, so both ways give the same rules in the same order. -/

namespace MailTemplate
namespace Sheet

section
variable {css first second : Text} {rules later found : List Rule}

theorem parse_eq_ok_iff : parse css = .ok found ↔
    ∃ plain, Uncommented css [] plain ∧ Sheet.rules plain = .ok found := by
  unfold parse
  constructor
  · intro h
    split at h
    · cases h
    · next plain hplain =>
      split at h
      · cases h
      · next result hresult =>
        cases h
        exact ⟨plain, dropComments_eq_ok_iff.1 hplain, hresult⟩
  · rintro ⟨plain, hplain, hrules⟩
    rw [dropComments_eq_ok_iff.2 hplain]
    simp [hrules]

theorem exists_statements_semicolon (h : Sheet.rules css = .ok found) :
    ∃ sections, Statements (css ++ [';']) sections ∧ understood sections = found := by
  obtain ⟨front, sections, tail, rfl, hs, htail, rfl⟩ := rules_eq_ok_iff.1 h
  have hend : Statements (tail ++ [';']) [] := by
    rcases htail with rfl | ⟨words, rfl, hw⟩
    · exact .filler (by decide) .nil
    · exact .atLine hw .nil
  refine ⟨sections, ?_, rfl⟩
  simpa using hs.append hend

theorem parse_semicolon (hf : parse first = .ok rules) (hs : parse second = .ok later) :
    parse (first ++ [';'] ++ second) = .ok (rules ++ later) := by
  obtain ⟨plain, hplain, hrules⟩ := parse_eq_ok_iff.1 hf
  obtain ⟨rest, hrest, hlater⟩ := parse_eq_ok_iff.1 hs
  obtain ⟨sections, hsections, rfl⟩ := exists_statements_semicolon hrules
  have hsemicolon : dropComments ([';'] ++ second) = .ok ([';'] ++ rest) := by
    rw [List.singleton_append, dropComments_char (by simp [List.cons_prefix_cons]),
      dropComments_eq_ok_iff.2 hrest]
    rfl
  have hwhole : dropComments (first ++ [';'] ++ second) = .ok (plain ++ [';'] ++ rest) := by
    rw [List.append_assoc, (hplain.append_right (by simp)).dropComments_append, hsemicolon,
      List.append_assoc]
    rfl
  refine parse_eq_ok_iff.2 ⟨_, dropComments_eq_ok_iff.1 hwhole, ?_⟩
  rw [rules_append hsections, hlater]
  rfl

theorem parse_joinWith {sheets : List Text} {parts : List (List Rule)}
    (h : List.Forall₂ (fun css rules => parse css = .ok rules) sheets parts) :
    parse (Text.joinWith [';'] sheets) = .ok parts.flatten := by
  induction h with
  | nil => decide +kernel
  | @cons first rules sheets parts hfirst hrest ih =>
    cases hrest with
    | nil => simpa [Text.joinWith] using hfirst
    | cons hnext hlater => exact parse_semicolon hfirst ih

end
end Sheet

namespace Cascade

/-- The texts that the rules for a document come from, in order. -/
def sheets (doc : Document) (extra : Option Text) : List Text :=
  extra.toList ++ (doc.elementsNamed "style".toList).map doc.text

theorem forall₂_of_mapM_eq_ok {α β ε : Type} {f : α → Except ε β} {inputs : List α} {outputs : List β}
    (h : inputs.mapM f = .ok outputs) :
    List.Forall₂ (fun input output => f input = .ok output) inputs outputs := by
  induction inputs generalizing outputs with
  | nil =>
    cases h
    exact .nil
  | cons first rest ih =>
    rw [List.mapM_cons] at h
    obtain ⟨value, hf, h⟩ := bind_eq_ok_iff.1 h
    obtain ⟨values, hr, h⟩ := bind_eq_ok_iff.1 h
    cases h
    exact .cons hf (ih hr)

theorem exists_parts_of_rulesOf {doc : Document} {extra : Option Text} {found : List Rule}
    (h : rulesOf doc extra = .ok found) : ∃ parts,
      List.Forall₂ (fun css rules => Sheet.parse css = .ok rules) (sheets doc extra) parts ∧
        parts.flatten = found := by
  obtain ⟨first, own, hfirst, hown, rfl⟩ := rulesOf_eq_ok h
  have howns : List.Forall₂ (fun css rules => Sheet.parse css = .ok rules)
      ((doc.elementsNamed "style".toList).map doc.text) own :=
    List.forall₂_map_left_iff.2 (forall₂_of_mapM_eq_ok hown)
  rcases hfirst with ⟨rfl, rfl⟩ | ⟨css, rfl, hparse⟩
  · exact ⟨own, howns, rfl⟩
  · exact ⟨first :: own, .cons hparse howns, rfl⟩

/-- Two stylesheets joined by a semicolon have the rules of both, in order; and the rules for a document,
from the extra stylesheet and from its style elements, are those of all these texts joined. -/
theorem parse_append_semicolon {first second : Text} {rules later : List Rule}
    (hf : Sheet.parse first = .ok rules) (hs : Sheet.parse second = .ok later) :
    Sheet.parse (first ++ [';'] ++ second) = .ok (rules ++ later) ∧
      ∀ (doc : Document) (extra : Option Text) (found : List Rule), rulesOf doc extra = .ok found →
        Sheet.parse (Text.joinWith [';'] (sheets doc extra)) = .ok found := by
  refine ⟨Sheet.parse_semicolon hf hs, fun doc extra found h => ?_⟩
  obtain ⟨parts, hparts, rfl⟩ := exists_parts_of_rulesOf h
  exact Sheet.parse_joinWith hparts

/-- The first part ends in an at-rule without an end, behind comments, a block of an at-rule and a
selector that is not understood. -/
theorem parse_append_semicolon_tail :
    let first := ("/* \x7b */ p, a:hover \x7b a: b \x7d b + i \x7b c: d \x7d " ++
      "@media x \x7b q \x7b e: f \x7d \x7d @import y").toList
    let second := "@font-face \x7b g: h \x7d .k\x7bm:n\x7d @o".toList
    let rules : List Rule := [⟨[.compound ⟨some ['p'], none, [], []⟩], [⟨['a'], ['b'], false⟩]⟩]
    let later : List Rule := [⟨[.compound ⟨none, none, [['k']], []⟩], [⟨['m'], ['n'], false⟩]⟩]
    let doc := Document.ofForest (.element ⟨"style".toList, [], false⟩ (.leaf (.text second) .nil) .nil)
    Sheet.parse first = .ok rules ∧ Sheet.parse second = .ok later ∧
      Sheet.parse (first ++ [';'] ++ second) = .ok (rules ++ later) ∧
        rulesOf doc (some first) = .ok (rules ++ later) ∧
          Sheet.parse (Text.joinWith [';'] (sheets doc (some first))) = .ok (rules ++ later) := by
  intro first second rules later doc
  have hf : Sheet.parse first = .ok rules := by decide +kernel
  have hs : Sheet.parse second = .ok later := by decide +kernel
  have hrules : rulesOf doc (some first) = .ok (rules ++ later) := by decide +kernel
  obtain ⟨hjoined, hall⟩ := parse_append_semicolon hf hs
  exact ⟨hf, hs, hjoined, hrules, hall doc (some first) _ hrules⟩

end Cascade
end MailTemplate
