/-! Columns: a text is padded with blanks to a width in characters and never cut. -/
namespace StepMotion.Text

def alignLeft (width : Nat) (text : String) : String := text.pushn ' ' (width - text.length)

def alignRight (width : Nat) (text : String) : String := "".pushn ' ' (width - text.length) ++ text

end StepMotion.Text
