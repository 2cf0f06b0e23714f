import MailTemplate.Text.Basic

/-! What can go wrong with markup: text that breaks off inside a construct, and edits of nodes that
do not allow them. -/

namespace MailTemplate

abbrev NodeId := Nat

/-- The causes of failure. The first two carry the byte at which the open construct begins. -/
inductive MarkupError where
  | unterminatedTag (start : Nat)
  | unterminatedComment (start : Nat)
  | noSuchNode (node : NodeId)
  | detached (node : NodeId)
  | notAnElement (node : NodeId)
  deriving Repr, DecidableEq

namespace MarkupError

def message : MarkupError → Text
  | unterminatedTag n => "unterminated tag starting at byte ".toList ++ Text.ofNat n
  | unterminatedComment n => "unterminated comment starting at byte ".toList ++ Text.ofNat n
  | noSuchNode n => "node ".toList ++ Text.ofNat n ++ " does not exist".toList
  | detached n => "node ".toList ++ Text.ofNat n ++ " has no parent".toList
  | notAnElement n => "node ".toList ++ Text.ofNat n ++ " is not an element".toList

end MarkupError
end MailTemplate
