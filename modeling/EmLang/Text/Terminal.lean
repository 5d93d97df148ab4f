/-!
Control sequences that set the style of text on a terminal.
-/

namespace EmLang.Text.Terminal

def bold : String := "\x1b[1m"

/-- Back to the plain style and colour. -/
def plain : String := "\x1b[m"

def colour (n : Nat) : String := s!"\x1b[38;5;{n}m"

/-- Back to the usual colour of text. -/
def usualColour : String := "\x1b[39m"

def red : String := colour 1
def green : String := colour 2
def yellow : String := colour 3
def blue : String := colour 4
def magenta : String := colour 5
def cyan : String := colour 6
def lightGreen : String := colour 10
def lightBlue : String := colour 12
def lightWhite : String := colour 15

end EmLang.Text.Terminal
