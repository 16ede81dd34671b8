import Masthead.Comment.Leading
import Masthead.LineEnding

namespace Masthead.Header

/-- The header as it is written before `following`: with its dominant line ending throughout, and
with one more where a comment follows that nothing else separates from it. -/
def layOut (g : Comment.Grammar) (header following : Text) :
    Except Comment.CommentError Text :=
  let ending := (LineEnding.dominant header).text
  let written := LineEnding.replaceAll ending header
  if ending.isPrefixOf following || (ending ++ ending).isSuffixOf written then .ok written
  else (g.leading following).map fun comment =>
    if comment = [] then written else written ++ ending

end Masthead.Header
