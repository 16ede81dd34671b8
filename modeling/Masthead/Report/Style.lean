import Masthead.Text

namespace Masthead.Report

inductive Style where
  | red
  | green
  | yellow
  | cyan
  | dimmed
  deriving DecidableEq, Repr

namespace Style

def sequence (code : Nat) : Text := '\x1b' :: '[' :: Text.ofNat code ++ ['m']

/-- Starts the style. -/
def opening : Style → Text
  | red => sequence 31
  | green => sequence 32
  | yellow => sequence 33
  | cyan => sequence 36
  | dimmed => sequence 2

/-- Goes back to the default colour, or to no style at all. -/
def closing : Style → Text
  | dimmed => sequence 0
  | _ => sequence 39

def paint (s : Style) (colored : Bool) (t : Text) : Text :=
  if colored then s.opening ++ t ++ s.closing else t

@[simp] theorem paint_false (s : Style) (t : Text) : s.paint false t = t := rfl

end Style
end Masthead.Report
